import MarkupText.Line

namespace MarkupText

namespace Line

variable {l : Line} {rs : Array Run} {r longer : Run}

def front (l : Line) : List Run := l.runs.pop.toList

theorem back?_runs (l : Line) : l.runs.back? = some l.last := by
  rw [Array.back?_eq_getElem?, Line.last, Array.back_eq_getElem,
    Array.getElem?_eq_getElem (Nat.sub_lt l.runs_size_pos Nat.one_pos)]

theorem toList_runs (l : Line) : l.runs.toList = l.front ++ [l.last] := by
  obtain ⟨rs, hrs⟩ := Array.back?_eq_some_iff.mp l.back?_runs
  rw [front, hrs, Array.pop_push, Array.toList_push]

theorem exists_cons (l : Line) : ∃ rs, l.runs.toList = l.first :: rs := by
  cases hl : l.runs.toList with
  | nil =>
    have hpos := l.runs_size_pos
    simp [← Array.length_toList, hl] at hpos
  | cons r rs =>
    refine ⟨rs, ?_⟩
    unfold first
    simp only [← Array.getElem_toList, hl, List.getElem_cons_zero]

theorem last_of_push (h : l.runs = rs.push r) : l.last = r := by
  have hback := l.back?_runs
  rw [h, Array.back?_push] at hback
  exact (Option.some.inj hback).symm

theorem front_of_push (h : l.runs = rs.push r) : l.front = rs.toList := by
  rw [front, h, Array.pop_push]

theorem last_single (r : Run) : (single r).last = r := rfl

theorem front_single (r : Run) : (single r).front = [] := rfl

theorem extendLast?_eq_some (h : l.last.extend? r = some longer) :
    ∃ l', l.extendLast? r = some l' ∧ l'.last = longer ∧ l'.front = l.front := by
  rw [extendLast?, h]
  exact ⟨_, rfl, last_of_push rfl, front_of_push rfl⟩

theorem extendLast?_eq_none (h : l.last.extend? r = none) : l.extendLast? r = none := by
  rw [extendLast?, h]
  rfl

end Line

def lineRuns (ls : List Line) : List Run := ls.flatMap (·.runs.toList)

@[simp] theorem lineRuns_nil : lineRuns [] = [] := rfl

@[simp] theorem lineRuns_cons (l : Line) (ls : List Line) :
    lineRuns (l :: ls) = l.runs.toList ++ lineRuns ls := rfl

@[simp] theorem lineRuns_append (ks ls : List Line) :
    lineRuns (ks ++ ls) = lineRuns ks ++ lineRuns ls := List.flatMap_append

end MarkupText
