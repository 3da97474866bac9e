import Mathlib.Data.List.Nodup
import Mathlib.Data.List.Perm.Subperm
import MarkupText.Proofs.RecordReadings

namespace MarkupText

open Draft Json

namespace Settings

def items (s : Settings) : List Item := [.locale s.locale, .titles s.titles?]

/-- Settings may be given with their fields in either order, and without a field that is as it is by
default. -/
structure IsGivenBy (s : Settings) (items : List Item) : Prop where
  subperm : items.Subperm s.items
  of_not_mem : ∀ i ∈ s.items, i ∉ items → i ∈ ({} : Settings).items

/-- Settings come back from every text in JSON that gives them, whatever its layout and however its
characters are escaped. -/
structure IsKept (s : Settings) : Prop where
  written : ofJson (s.toJson.write .compact 0) = .ok s
  laidOut (items : List Item) (l : Json.Layout) : s.IsGivenBy items → l.IsSpaced →
    ofJson ((Value.object (items.map Item.toJson)).write l 0) = .ok s
  spelled (items : List Item) (cs : Text) : s.IsGivenBy items →
    Reads (Symbol.ofText cs) (.object (items.map Item.toJson)) [] →
    ofJson cs = .ok s ∧ (ofJson cs).map rules = .ok s.rules
  unique (s' : Settings) : s'.toJson.write .compact 0 = s.toJson.write .compact 0 → s' = s

end Settings

namespace Rules

def items (r : Rules) : List Item := [.locale r.locale, .titles (some r.titles)]

structure IsKept (r : Rules) : Prop where
  written : ofJson (r.toJson.write .compact 0) = .ok r
  laidOut (items : List Item) (l : Json.Layout) : items.Perm r.items → l.IsSpaced →
    ofJson ((Value.object (items.map Item.toJson)).write l 0) = .ok r
  spelled (items : List Item) (cs : Text) : items.Perm r.items →
    Reads (Symbol.ofText cs) (.object (items.map Item.toJson)) [] → ofJson cs = .ok r

end Rules

theorem isSpaced_compact : Json.Layout.compact.IsSpaced := by
  constructor
  · intro depth c hc
    cases hc
  · exact ⟨[], rfl, List.forall_mem_nil _⟩

theorem reads_written {l : Json.Layout} (hl : l.IsSpaced) (v : Value) :
    Reads (Symbol.ofText (v.write l 0)) v [] := by
  have hend : EndsValue [] := by
    intro c hc
    cases hc
  have hreads := reads_write hl v 0 [] hend
  have hempty : Symbol.ofText [] = [] := by rw [Symbol.ofText]
  rwa [List.append_nil, hempty] at hreads

section Fields

variable {all items : List Item} {i : Item}

theorem nodup_fields (cs : Text) (titles? : Option Titles) :
    ([.locale cs, .titles titles?].map Item.field).Nodup := by
  change [Field.locale, Field.titles].Nodup
  decide

theorem nodup_fields_of_subperm (hall : (all.map Item.field).Nodup) (h : items.Subperm all) :
    (items.map Item.field).Nodup := by
  obtain ⟨part, hperm, hsub⟩ := h
  exact (hperm.map Item.field).nodup_iff.mp (hall.sublist (hsub.map Item.field))

theorem get_foldl_of_perm (hall : (all.map Item.field).Nodup) (h : items.Perm all)
    (hi : i ∈ all) : (items.foldl put {}).get i.field = some i :=
  get_foldl_of_mem {} (nodup_fields_of_subperm hall h.subperm) (h.mem_iff.mpr hi)

/-- A draft has the fields that it is given and no other. -/
theorem get_foldl_of_subperm (hall : (all.map Item.field).Nodup) (h : items.Subperm all)
    (hi : i ∈ all) : i ∈ items ∧ (items.foldl put {}).get i.field = some i ∨
      i ∉ items ∧ (items.foldl put {}).get i.field = none := by
  by_cases hmem : i ∈ items
  · exact .inl ⟨hmem, get_foldl_of_mem {} (nodup_fields_of_subperm hall h) hmem⟩
  · have hother : ∀ j ∈ items, j.field ≠ i.field := by
      intro j hj heq
      obtain rfl := List.inj_on_of_nodup_map hall (h.subset hj) hi heq
      exact hmem hj
    refine .inr ⟨hmem, ?_⟩
    rw [get_foldl_of_forall_ne {} hother, get_empty]

end Fields

namespace Settings

variable {s : Settings} {items : List Item} {cs : Text}

theorem isGivenBy_items (s : Settings) : s.IsGivenBy s.items where
  subperm := .refl _
  of_not_mem _ hi hnot := absurd hi hnot

theorem locale_foldl (h : s.IsGivenBy items) :
    (items.foldl put {}).locale?.getD ({} : Settings).locale = s.locale := by
  have hi : .locale s.locale ∈ s.items := List.mem_cons_self
  rcases get_foldl_of_subperm (nodup_fields _ _) h.subperm hi with ⟨-, hget⟩ | ⟨hnot, hget⟩
  · rw [locale?_of_get hget, Option.getD_some]
  · rw [Option.map_eq_none_iff.mp hget]
    rcases List.mem_pair.mp (h.of_not_mem _ hi hnot) with hdefault | hdefault
    · exact (Item.locale.inj hdefault).symm
    · cases hdefault

theorem titles_foldl (h : s.IsGivenBy items) :
    (items.foldl put {}).titles?.getD ({} : Settings).titles? = s.titles? := by
  have hi : .titles s.titles? ∈ s.items := List.mem_cons_of_mem _ List.mem_cons_self
  rcases get_foldl_of_subperm (nodup_fields _ _) h.subperm hi with ⟨-, hget⟩ | ⟨hnot, hget⟩
  · rw [titles?_of_get hget, Option.getD_some]
  · rw [Option.map_eq_none_iff.mp hget]
    rcases List.mem_pair.mp (h.of_not_mem _ hi hnot) with hdefault | hdefault
    · cases hdefault
    · exact (Item.titles.inj hdefault).symm

theorem ofJson_of_reads (h : s.IsGivenBy items)
    (hreads : Reads (Symbol.ofText cs) (.object (items.map Item.toJson)) []) :
    ofJson cs = .ok s := by
  have hfits : ∀ i ∈ items, i.FitsIn settingsFormat := by
    intro i _
    cases i with
    | locale _ => exact trivial
    | titles _ => exact fun _ ↦ rfl
  have hread := read_eq (nodup_fields_of_subperm (nodup_fields _ _) h.subperm) hfits rfl hreads
  rw [ofJson, hread]
  exact congrArg Except.ok (congrArg₂ mk (locale_foldl h) (titles_foldl h))

theorem isKept (s : Settings) : s.IsKept := by
  have hlaidOut (items : List Item) (l : Json.Layout) (h : s.IsGivenBy items) (hl : l.IsSpaced) :
      ofJson ((Value.object (items.map Item.toJson)).write l 0) = .ok s :=
    ofJson_of_reads h (reads_written hl _)
  have hwritten (s : Settings) : ofJson (s.toJson.write .compact 0) = .ok s :=
    ofJson_of_reads s.isGivenBy_items (reads_written isSpaced_compact s.toJson)
  constructor
  · exact hwritten s
  · exact hlaidOut
  · intro items cs h hreads
    have hs := ofJson_of_reads h hreads
    exact ⟨hs, congrArg (Except.map rules) hs⟩
  · intro s' heq
    have hs' := hwritten s'
    rw [heq, hwritten s] at hs'
    exact (Except.ok.inj hs').symm

end Settings

namespace Rules

variable {r : Rules} {items : List Item} {cs : Text}

theorem locale_foldl (h : items.Perm r.items) :
    (items.foldl put {}).locale? = some r.locale := by
  have hi : .locale r.locale ∈ r.items := List.mem_cons_self
  apply locale?_of_get
  exact get_foldl_of_perm (nodup_fields _ _) h hi

theorem titles_foldl (h : items.Perm r.items) :
    (items.foldl put {}).titles? = some (some r.titles) := by
  have hi : .titles (some r.titles) ∈ r.items := List.mem_cons_of_mem _ List.mem_cons_self
  apply titles?_of_get
  exact get_foldl_of_perm (nodup_fields _ _) h hi

theorem ofJson_of_reads (h : items.Perm r.items)
    (hreads : Reads (Symbol.ofText cs) (.object (items.map Item.toJson)) []) :
    ofJson cs = .ok r := by
  have hfits : ∀ i ∈ items, i.FitsIn rulesFormat := by
    intro i hi
    rcases List.mem_pair.mp (h.mem_iff.mp hi) with rfl | rfl
    · exact trivial
    · intro hnone
      cases hnone
  have hclose : close rulesFormat (items.foldl put {}) = .ok (items.foldl put {}, .done) := by
    have hall : (items.foldl put {}).has .locale ∧ (items.foldl put {}).has .titles := by
      rw [has, has, locale_foldl h, titles_foldl h]
      exact ⟨rfl, rfl⟩
    exact if_neg fun hmissing ↦ hmissing.2 hall
  have hread := read_eq (nodup_fields_of_subperm (nodup_fields _ _) h.subperm) hfits hclose hreads
  rw [ofJson, hread]
  change Except.ok (mk _ _) = _
  rw [locale_foldl h, titles_foldl h]
  rfl

theorem isKept (r : Rules) : r.IsKept where
  written := ofJson_of_reads (.refl _) (reads_written isSpaced_compact r.toJson)
  laidOut _ _ h hl := ofJson_of_reads h (reads_written hl _)
  spelled _ _ := ofJson_of_reads

end Rules

/-- Settings and rules come back from their texts, an absent list of titles as an absent one. -/
theorem records_kept : (∀ s : Settings, s.IsKept) ∧ ∀ r : Rules, r.IsKept :=
  ⟨Settings.isKept, Rules.isKept⟩

end MarkupText
