import MarkupText.Proofs.JsonTexts
import MarkupText.Settings.Reader

namespace MarkupText

namespace Json

variable {ss rest : List Symbol} {v : Value} {vs : List Value} {key : String}
  {fields : List (String × Value)}

theorem ReadsElements.cons_cases (h : ReadsElements ss (v :: vs) rest) :
    vs = [] ∧ Reads ss v (.mark ']' :: rest) ∨
      ∃ ss', Reads ss v (.mark ',' :: ss') ∧ ReadsElements ss' vs rest := by
  cases h with
  | last hv => exact .inl ⟨rfl, hv⟩
  | more hv hvs => exact .inr ⟨_, hv, hvs⟩

theorem ReadsFields.cons_cases (h : ReadsFields ss ((key, v) :: fields) rest) :
    ∃ parts ss', ss = .string parts :: .mark ':' :: ss' ∧
      (∀ fault, Part.text fault parts = .ok key.toList) ∧
      (fields = [] ∧ Reads ss' v (.mark '}' :: rest) ∨
        ∃ ss'', Reads ss' v (.mark ',' :: ss'') ∧ ReadsFields ss'' fields rest) := by
  cases h with
  | last hkey hv => exact ⟨_, _, rfl, hkey, .inl ⟨rfl, hv⟩⟩
  | more hkey hv hfields => exact ⟨_, _, rfl, hkey, .inr ⟨_, hv, hfields⟩⟩

end Json

namespace Draft

open Json

inductive Item
  | locale (cs : Text)
  | titles (titles? : Option Titles)

namespace Item

def field : Item → Field
  | locale _ => .locale
  | titles _ => .titles

def toJson : Item → String × Value
  | locale cs => ("locale", .string cs)
  | titles titles? => ("title_abbreviations", (titles?.map Titles.toJson).getD .null)

def FitsIn (f : Format) : Item → Prop
  | locale _ => True
  | titles titles? => titles? = none → f.allowsNull

end Item

def put (d : Draft) : Item → Draft
  | .locale cs => { d with locale? := some cs }
  | .titles titles? => { d with titles? := some titles? }

def get (d : Draft) : Field → Option Item
  | .locale => d.locale?.map .locale
  | .titles => d.titles?.map .titles

variable {f : Format} {d : Draft} {i : Item} {items : List Item} {field : Field}
  {ss rest : List Symbol} {parts : List Part} {cs : Text} {titles past : Titles}

theorem isSome_get (d : Draft) (field : Field) : (d.get field).isSome = d.has field := by
  cases field <;> exact Option.isSome_map

theorem get_empty (field : Field) : ({} : Draft).get field = none := by
  cases field <;> rfl

theorem locale?_of_get (h : d.get .locale = some (.locale cs)) : d.locale? = some cs := by
  obtain ⟨cs', hcs, hlocale⟩ := Option.map_eq_some_iff.mp h
  rw [hcs, Item.locale.inj hlocale]

theorem titles?_of_get {titles? : Option Titles} (h : d.get .titles = some (.titles titles?)) :
    d.titles? = some titles? := by
  obtain ⟨titles?', htitles, heq⟩ := Option.map_eq_some_iff.mp h
  rw [htitles, Item.titles.inj heq]

theorem get_put_self (d : Draft) (i : Item) : (d.put i).get i.field = some i := by
  cases i <;> rfl

theorem get_put_of_ne (d : Draft) (h : i.field ≠ field) : (d.put i).get field = d.get field := by
  cases i <;> cases field <;> first | rfl | exact absurd rfl h

theorem get_foldl_of_forall_ne (d : Draft) (h : ∀ i ∈ items, i.field ≠ field) :
    (items.foldl put d).get field = d.get field := by
  induction items generalizing d with
  | nil => rfl
  | cons i items ih =>
    obtain ⟨hi, hitems⟩ := List.forall_mem_cons.mp h
    rw [List.foldl_cons, ih _ hitems, get_put_of_ne d hi]

/-- What is put into a draft stays there, if no field is given twice. -/
theorem get_foldl_of_mem (d : Draft) (hnodup : (items.map Item.field).Nodup) (hi : i ∈ items) :
    (items.foldl put d).get i.field = some i := by
  induction items generalizing d with
  | nil => cases hi
  | cons j items ih =>
    obtain ⟨hj, hnodup⟩ := List.nodup_cons.mp hnodup
    rw [List.foldl_cons]
    rcases List.mem_cons.mp hi with rfl | hi
    · have hother : ∀ k ∈ items, k.field ≠ i.field :=
        fun k hk heq ↦ hj (heq ▸ List.mem_map_of_mem hk)
      rw [get_foldl_of_forall_ne _ hother, get_put_self]
    · exact ih _ hnodup hi

theorem foldlM_locale (h : Reads ss (.string cs) rest) :
    ss.foldlM (step f) (d, .value (some .locale)) =
      rest.foldlM (step f) (d.put (.locale cs), .next) := by
  cases h with
  | string hparts =>
    rw [List.foldlM_cons, step, textOf, hparts]
    rfl

theorem foldlM_title (h : ∀ fault, Part.text fault parts = .ok cs) (ss : List Symbol)
    (past : Titles) : (.string parts :: ss).foldlM (step f) (d, .title false past) =
      ss.foldlM (step f) (d, .nextTitle false (past ++ [cs])) := by
  rw [List.foldlM_cons, step, stepTitle, textOf, h]
  rfl

theorem foldlM_elements (h : ReadsElements ss (titles.map .string) rest) (past : Titles) :
    ss.foldlM (step f) (d, .title false past) =
      rest.foldlM (step f) (d.put (.titles (some (past ++ titles))), .next) := by
  induction titles generalizing ss past with
  | nil => cases h
  | cons cs titles ih =>
    rcases h.cons_cases with ⟨htitles, hv⟩ | ⟨ss', hv, hmore⟩
    · cases hv with
      | string hparts =>
        obtain rfl := List.map_eq_nil_iff.mp htitles
        rw [foldlM_title hparts]
        rfl
    · cases hv with
      | string hparts =>
        have hrest := ih hmore (past ++ [cs])
        rw [List.append_assoc] at hrest
        rw [foldlM_title hparts]
        exact hrest

theorem foldlM_firstTitle (h : ReadsElements ss ((cs :: titles).map .string) rest) :
    ss.foldlM (step f) (d, .firstTitle false) = ss.foldlM (step f) (d, .title false []) := by
  obtain ⟨parts, ss', rfl⟩ : ∃ parts ss', ss = .string parts :: ss' := by
    rcases h.cons_cases with ⟨-, hv⟩ | ⟨_, hv, -⟩ <;>
    · cases hv
      exact ⟨_, _, rfl⟩
  rfl

theorem foldlM_titles (h : Reads ss titles.toJson rest) :
    ss.foldlM (step f) (d, .value (some .titles)) =
      rest.foldlM (step f) (d.put (.titles (some titles)), .next) := by
  cases titles with
  | nil =>
    cases h with
    | noList => rfl
    | list h => cases h
  | cons cs titles =>
    cases h with
    | list h => exact (foldlM_firstTitle h).trans (foldlM_elements h [])

theorem foldlM_null (hnull : f.allowsNull) (h : Reads ss .null rest) :
    ss.foldlM (step f) (d, .value (some .titles)) =
      rest.foldlM (step f) (d.put (.titles none), .next) := by
  cases h with
  | null =>
    rw [List.foldlM_cons, step, stepTitles, if_neg (by nofun), if_pos ⟨rfl, hnull⟩]
    rfl

theorem foldlM_value (hfits : i.FitsIn f) (h : Reads ss i.toJson.2 rest) :
    ss.foldlM (step f) (d, .value (some i.field)) =
      rest.foldlM (step f) (d.put i, .next) := by
  match i, hfits with
  | .locale cs, _ => exact foldlM_locale h
  | .titles none, hfits => exact foldlM_null (hfits rfl) h
  | .titles (some titles), _ => exact foldlM_titles h

theorem ofName?_toJson (i : Item) : Field.ofName? i.toJson.1.toList = some i.field := by
  cases i <;> simp only [Field.ofName?, Item.toJson, String.ofList_toList] <;> rfl

theorem foldlM_key (hfresh : d.has i.field = false)
    (hparts : ∀ fault, Part.text fault parts = .ok i.toJson.1.toList) (ss : List Symbol) :
    (.string parts :: .mark ':' :: ss).foldlM (step f) (d, .key) =
      ss.foldlM (step f) (d, .value (some i.field)) := by
  have hkey : step f (d, .key) (.string parts) = .ok (d, .colon (some i.field)) := by
    rw [step, stepKey, hparts]
    dsimp only [bind, Except.bind]
    rw [ofName?_toJson]
    dsimp only
    rw [hfresh]
    rfl
  rw [List.foldlM_cons, hkey]
  rfl

/-- Fields that are each given once and fit are all taken, and nothing else is. -/
theorem foldlM_fields (hnodup : (items.map Item.field).Nodup)
    (hfresh : ∀ i ∈ items, d.has i.field = false) (hfits : ∀ i ∈ items, i.FitsIn f)
    (h : ReadsFields ss (items.map Item.toJson) rest) :
    ss.foldlM (step f) (d, .key) = (close f (items.foldl put d)).bind (rest.foldlM (step f)) := by
  induction items generalizing ss d with
  | nil => cases h
  | cons i items ih =>
    obtain ⟨hi, hfresh⟩ := List.forall_mem_cons.mp hfresh
    obtain ⟨hfit, hfits⟩ := List.forall_mem_cons.mp hfits
    obtain ⟨hother, hnodup⟩ := List.nodup_cons.mp hnodup
    obtain ⟨parts, ss', rfl, hparts, hrest⟩ := h.cons_cases
    rw [foldlM_key hi hparts]
    rcases hrest with ⟨hitems, hv⟩ | ⟨ss'', hv, hfields⟩
    · obtain rfl := List.map_eq_nil_iff.mp hitems
      rw [foldlM_value hfit hv]
      rfl
    · have hfresh' : ∀ j ∈ items, (d.put i).has j.field = false := by
        intro j hj
        have hne : i.field ≠ j.field := fun heq ↦ hother (heq ▸ List.mem_map_of_mem hj)
        rw [← isSome_get, get_put_of_ne d hne, isSome_get, hfresh j hj]
      rw [foldlM_value hfit hv]
      exact ih hnodup hfresh' hfits hfields

theorem foldlM_firstKey (h : ReadsFields ss ((i :: items).map Item.toJson) rest) :
    ss.foldlM (step f) (d, .firstKey) = ss.foldlM (step f) (d, .key) := by
  obtain ⟨parts, ss', rfl, -, -⟩ := h.cons_cases
  rfl

/-- A record is read from every text that has its fields, each once, in whatever order. -/
theorem read_eq (hnodup : (items.map Item.field).Nodup) (hfits : ∀ i ∈ items, i.FitsIn f)
    (hclose : close f (items.foldl put {}) = .ok (items.foldl put {}, .done))
    (h : Reads (Symbol.ofText cs) (.object (items.map Item.toJson)) []) :
    read f cs = .ok (items.foldl put {}) := by
  have hrun : (Symbol.ofText cs).foldlM (step f) ({}, .start) =
      .ok (items.foldl put {}, .done) := by
    generalize Symbol.ofText cs = ss at h
    cases items with
    | nil =>
      cases h with
      | noObject =>
        have hends : [.mark '{', .mark '}'].foldlM (step f) ({}, .start) =
            (close f {}).bind (([] : List Symbol).foldlM (step f)) := rfl
        exact hends.trans (congrArg (Except.bind · _) hclose)
      | object h => cases h
    | cons i items =>
      cases h with
      | @object ss _ _ h =>
        have hfresh : ∀ j ∈ i :: items, ({} : Draft).has j.field = false := by
          intro j _
          rw [← isSome_get, get_empty]
          rfl
        have hfields := foldlM_fields hnodup hfresh hfits h
        rw [hclose] at hfields
        exact (foldlM_firstKey h).trans hfields
  rw [read, hrun]
  rfl

end Draft

end MarkupText
