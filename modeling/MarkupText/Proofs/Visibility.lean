import MarkupText.Proofs.Placement

namespace MarkupText

namespace Kind

def noIndexEdge? : Kind → Option Edge
  | noIndex edge => some edge
  | _ => none

def titleEdge? : Kind → Option Edge
  | title edge => some edge
  | _ => none

def headEdge? : Kind → Option Edge
  | head edge => some edge
  | _ => none

end Kind

def withPast (past : List Token) : List Token → List (List Token × Token)
  | [] => []
  | t :: ts => (past, t) :: withPast (past ++ [t]) ts

def opensLast (edge? : Kind → Option Edge) (ts : List Token) : Bool :=
  (ts.filterMap (edge? ·.kind)).getLast? = some .opening

def inNoIndex (before : List Token) : Bool := opensLast Kind.noIndexEdge? before

def outsideNoIndex (ts : List Token) : List Token :=
  ((withPast [] ts).filter (!inNoIndex ·.1)).map Prod.snd

def inHead (before : List Token) : Bool := opensLast Kind.headEdge? (outsideNoIndex before)

def inTitle (before : List Token) : Bool := opensLast Kind.titleEdge? (outsideNoIndex before)

def hidesNext (before : List Token) : Bool :=
  inNoIndex before || (inHead before && !inTitle before)

def visibleText? (before : List Token) (t : Token) : Option Text :=
  if hidesNext before then none else t.shownText?

variable {past ts : List Token} {t : Token}

theorem withPast_append (past as bs : List Token) :
    withPast past (as ++ bs) = withPast past as ++ withPast (past ++ as) bs := by
  induction as generalizing past with
  | nil => simp [withPast]
  | cons t as ih => simp [withPast, ih]

theorem mem_withPast_iff {p : List Token × Token} :
    p ∈ withPast past ts ↔ ∃ front back, ts = front ++ p.2 :: back ∧ p.1 = past ++ front := by
  constructor
  · intro h
    induction ts generalizing past with
    | nil => cases h
    | cons t ts ih =>
      rcases List.mem_cons.mp h with rfl | h
      · exact ⟨[], ts, rfl, (List.append_nil past).symm⟩
      · obtain ⟨front, back, rfl, hp⟩ := ih h
        exact ⟨t :: front, back, rfl, by rw [hp, List.append_assoc, List.singleton_append]⟩
  · rintro ⟨front, back, rfl, hp⟩
    rw [withPast_append, ← hp]
    exact List.mem_append_right _ List.mem_cons_self

theorem opensLast_concat (edge? : Kind → Option Edge) (ts : List Token) (t : Token) :
    opensLast edge? (ts ++ [t]) =
      ((edge? t.kind).map fun edge ↦ decide (edge = .opening)).getD (opensLast edge? ts) := by
  unfold opensLast
  rw [List.filterMap_append]
  cases h : edge? t.kind <;> simp [h]

theorem outsideNoIndex_concat (ts : List Token) (t : Token) :
    outsideNoIndex (ts ++ [t]) =
      if inNoIndex ts then outsideNoIndex ts else outsideNoIndex ts ++ [t] := by
  unfold outsideNoIndex
  rw [withPast_append, List.filter_append, List.map_append, List.nil_append]
  cases h : inNoIndex ts <;> simp [withPast, h]

theorem inNoIndex_concat (ts : List Token) (t : Token) : inNoIndex (ts ++ [t]) =
    (t.kind.noIndexEdge?.map fun edge ↦ decide (edge = .opening)).getD (inNoIndex ts) :=
  opensLast_concat Kind.noIndexEdge? ts t

def regionAfter (ts : List Token) : Region := ts.foldl (fun g t ↦ g.after t.kind) {}

theorem regionAfter_concat (ts : List Token) (t : Token) :
    regionAfter (ts ++ [t]) = (regionAfter ts).after t.kind := List.foldl_concat ..

/-- The flags of a region say what the last edges among the tokens say. -/
theorem regionAfter_eq (ts : List Token) :
    regionAfter ts = ⟨inHead ts, inTitle ts, inNoIndex ts⟩ := by
  induction ts using List.reverseRecOn with
  | nil => rfl
  | append_singleton ts t ih =>
    rw [regionAfter_concat, ih]
    rw [inHead, inTitle, inHead, inTitle, outsideNoIndex_concat, inNoIndex_concat]
    cases hin : inNoIndex ts <;> cases hkind : t.kind <;>
      simp [Region.after, hkind, opensLast_concat, Kind.noIndexEdge?, Kind.titleEdge?,
        Kind.headEdge?]

theorem eventsFrom_append (g : Region) (as bs : List Token) :
    eventsFrom g (as ++ bs) =
      eventsFrom g as ++ eventsFrom (as.foldl (fun g t ↦ g.after t.kind) g) bs := by
  induction as generalizing g with
  | nil => rfl
  | cons t as ih => simp [eventsFrom, ih]

theorem inTitle_regionAfter (before : List Token) :
    (regionAfter before).inTitle = inTitle before := by rw [regionAfter_eq]

theorem isHidden_regionAfter (before : List Token) :
    (regionAfter before).isHidden = hidesNext before := by
  rw [regionAfter_eq]
  rfl

theorem Token.shownText?_of_isBoundary (h : t.isBoundary) : t.shownText? = none := by
  unfold Token.isBoundary at h
  unfold Token.shownText?
  split at h <;> simp_all

theorem contents_event? (before : List Token) (t : Token) :
    contents (t.event? (regionAfter before)).toList =
      ((visibleText? before t).map (⟨t.span, ·, inTitle before⟩)).toList := by
  unfold Token.event? visibleText?
  rw [isHidden_regionAfter, inTitle_regionAfter]
  by_cases hboundary : t.isBoundary
  · rw [if_pos hboundary, Token.shownText?_of_isBoundary hboundary, ite_self]
    split <;> rfl
  · rw [if_neg hboundary]
    split
    · rfl
    · cases t.shownText? <;> rfl

/-- The contents of a document are what its visible tokens show. -/
theorem contents_eventsFrom (past ts : List Token) :
    contents (eventsFrom (regionAfter past) ts) = (withPast past ts).filterMap fun p ↦
      (visibleText? p.1 p.2).map (⟨p.2.span, ·, inTitle p.1⟩) := by
  induction ts generalizing past with
  | nil => rfl
  | cons t ts ih =>
    rw [eventsFrom, contents_append, contents_event?, ← regionAfter_concat, ih, withPast]
    cases h : visibleText? past t <;> simp [h]

/-- Clean text is what the visible tokens show, in order. -/
theorem cleanText_eventsFrom (past ts : List Token) : cleanText (eventsFrom (regionAfter past) ts) =
    ((withPast past ts).filterMap fun p ↦ visibleText? p.1 p.2).flatten := by
  change (contents _).flatMap Fragment.text = _
  rw [contents_eventsFrom, List.flatMap_def, List.map_filterMap]
  simp only [Option.map_map, Function.comp_def, Option.map_id']

end MarkupText
