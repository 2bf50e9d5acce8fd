import Mathlib.Order.Bounds.Defs
import Mathlib.Order.Lattice.Nat
import Mathlib.Order.MinMax
import ScriptTypes.Text.Distance

/-! An edit inserts, deletes or substitutes one character at a position of a text. `cost` is the
recurrence for the distance between two texts. A single edit of a text moves its cost to any other
text by at most one, so no sequence of edits is shorter than the cost, and following the recurrence
gives one of that length. The rows that are computed hold the costs between prefixes, which are
those between the reversed prefixes. -/

namespace ScriptTypes.Text

inductive Edit where
  | insert (position : Nat) (c : Char)
  | delete (position : Nat)
  | substitute (position : Nat) (c : Char)

def Edit.apply (s : List Char) : Edit → Option (List Char)
  | insert i c => if i ≤ s.length then some (s.take i ++ c :: s.drop i) else none
  | delete i => if i < s.length then some (s.take i ++ s.drop (i + 1)) else none
  | substitute i c => if i < s.length then some (s.take i ++ c :: s.drop (i + 1)) else none

/-- Some `n` edits, made one after the other, turn the first text into the second. -/
def Turns (n : Nat) (s t : List Char) : Prop :=
  ∃ edits : List Edit, edits.length = n ∧ edits.foldlM Edit.apply s = some t

inductive Edited : List Char → List Char → Prop where
  | insert (before after : List Char) (c : Char) : Edited (before ++ after) (before ++ c :: after)
  | delete (before after : List Char) (c : Char) : Edited (before ++ c :: after) (before ++ after)
  | substitute (before after : List Char) (c d : Char) :
      Edited (before ++ c :: after) (before ++ d :: after)

namespace Edited

variable {s t : List Char}

theorem of_apply {edit : Edit} (applied : edit.apply s = some t) : Edited s t := by
  cases edit <;>
    simp only [Edit.apply, Option.ite_none_right_eq_some, Option.some.injEq] at applied <;>
    obtain ⟨inside, rfl⟩ := applied
  case insert i c => simpa using Edited.insert (s.take i) (s.drop i) c
  case delete i =>
    have parts := Edited.delete (s.take i) (s.drop (i + 1)) s[i]
    rwa [List.getElem_cons_drop, List.take_append_drop] at parts
  case substitute i c =>
    have parts := Edited.substitute (s.take i) (s.drop (i + 1)) s[i] c
    rwa [List.getElem_cons_drop, List.take_append_drop] at parts

theorem exists_apply (edited : Edited s t) : ∃ edit : Edit, edit.apply s = some t := by
  cases edited with
  | insert before after c => exact ⟨.insert before.length c, by simp [Edit.apply]⟩
  | delete before after c => exact ⟨.delete before.length, by simp [Edit.apply]⟩
  | substitute before after c d => exact ⟨.substitute before.length d, by simp [Edit.apply]⟩

theorem cons (c : Char) (edited : Edited s t) : Edited (c :: s) (c :: t) := by
  cases edited with
  | insert before after d => exact .insert (c :: before) after d
  | delete before after d => exact .delete (c :: before) after d
  | substitute before after d e => exact .substitute (c :: before) after d e

theorem reverse (edited : Edited s t) : Edited s.reverse t.reverse := by
  cases edited with
  | insert before after c => simpa using Edited.insert after.reverse before.reverse c
  | delete before after c => simpa using Edited.delete after.reverse before.reverse c
  | substitute before after c d => simpa using Edited.substitute after.reverse before.reverse c d

end Edited

namespace Turns

variable {n : Nat} {s t u : List Char}

theorem zero_iff : Turns 0 s t ↔ s = t := by
  simp [Turns]

theorem succ_iff : Turns (n + 1) s u ↔ ∃ t, Edited s t ∧ Turns n t u := by
  constructor
  · rintro ⟨edits, length, applied⟩
    obtain ⟨edit, edits, rfl⟩ := List.exists_cons_of_length_eq_add_one length
    rw [List.foldlM_cons] at applied
    obtain ⟨t, first, rest⟩ := Option.bind_eq_some_iff.mp applied
    exact ⟨t, .of_apply first, edits, by simpa using length, rest⟩
  · rintro ⟨t, edited, edits, rfl, rest⟩
    obtain ⟨edit, first⟩ := edited.exists_apply
    exact ⟨edit :: edits, rfl, by simp [first, rest]⟩

/-- Whatever each edit can be carried over to, a sequence of edits can. -/
theorem carry {f : List Char → List Char} (each : ∀ s t, Edited s t → Edited (f s) (f t))
    (turns : Turns n s t) : Turns n (f s) (f t) := by
  induction n generalizing s with
  | zero =>
    obtain rfl := zero_iff.mp turns
    exact zero_iff.mpr rfl
  | succ n ih =>
    obtain ⟨middle, first, rest⟩ := succ_iff.mp turns
    exact succ_iff.mpr ⟨f middle, each _ _ first, ih rest⟩

/-- One edit more, at the end. -/
theorem snoc (turns : Turns n s t) (edited : Edited t u) : Turns (n + 1) s u := by
  induction n generalizing s with
  | zero =>
    rw [zero_iff] at turns
    exact succ_iff.mpr ⟨u, turns ▸ edited, zero_iff.mpr rfl⟩
  | succ n ih =>
    obtain ⟨middle, first, rest⟩ := succ_iff.mp turns
    exact succ_iff.mpr ⟨middle, first, ih rest⟩

end Turns

/-- What the distance comes to by the first characters: delete the one, insert the other, or put
the one in the place of the other, which costs nothing if they are the same. -/
def cost : List Char → List Char → Nat
  | [], t => t.length
  | _ :: s, [] => s.length + 1
  | c :: s, d :: t =>
    min (min (cost s (d :: t) + 1) (cost (c :: s) t + 1)) (cost s t + if c = d then 0 else 1)
termination_by s t => s.length + t.length

variable {s t u : List Char}

@[simp] theorem cost_nil_left (t : List Char) : cost [] t = t.length := by
  rw [cost]

@[simp] theorem cost_nil_right (s : List Char) : cost s [] = s.length := by
  cases s <;> simp [cost]

theorem cost_cons_cons (c d : Char) (s t : List Char) :
    cost (c :: s) (d :: t) =
      min (min (cost s (d :: t) + 1) (cost (c :: s) t + 1)) (cost s t + if c = d then 0 else 1) := by
  rw [cost]

theorem cost_cons_left_le (c : Char) (s t : List Char) : cost (c :: s) t ≤ cost s t + 1 := by
  cases t with
  | nil => simp
  | cons d t => rw [cost_cons_cons]; omega

theorem cost_cons_right_le (d : Char) (s t : List Char) : cost s (d :: t) ≤ cost s t + 1 := by
  cases s with
  | nil => simp
  | cons c s => rw [cost_cons_cons]; omega

theorem cost_self (s : List Char) : cost s s = 0 := by
  induction s with
  | nil => simp
  | cons c s ih => simp [cost_cons_cons, ih]

theorem cost_comm (s t : List Char) : cost s t = cost t s := by
  fun_induction cost s t with
  | case1 t => simp
  | case2 c s => simp
  | case3 c s d t delete insert change =>
    rw [cost_cons_cons, delete, insert, change, Nat.min_comm (cost (d :: t) s + 1)]
    simp only [eq_comm]

theorem cost_le_cons_left (c : Char) (s u : List Char) : cost s u ≤ cost (c :: s) u + 1 := by
  induction u with
  | nil =>
    simp only [cost_nil_right, List.length_cons]
    omega
  | cons d u ih =>
    have := cost_cons_right_le d s u
    rw [cost_cons_cons]
    omega

theorem cost_substitute_le (c d : Char) (s u : List Char) :
    cost (c :: s) u ≤ cost (d :: s) u + 1 := by
  induction u with
  | nil => simp
  | cons e u ih =>
    rw [cost_cons_cons, cost_cons_cons]
    split <;> split <;> omega

theorem cost_cons_le (c : Char) (behind : ∀ u, cost s u ≤ cost t u + 1) (u : List Char) :
    cost (c :: s) u ≤ cost (c :: t) u + 1 := by
  induction u with
  | nil => simpa using behind []
  | cons d u ih =>
    have deleted := behind (d :: u)
    have changed := behind u
    rw [cost_cons_cons, cost_cons_cons]
    omega

theorem cost_append_le (before : List Char) (behind : ∀ u, cost s u ≤ cost t u + 1)
    (u : List Char) : cost (before ++ s) u ≤ cost (before ++ t) u + 1 := by
  induction before generalizing u with
  | nil => exact behind u
  | cons c before ih => exact cost_cons_le c ih u

/-- One edit moves the cost to any text by at most one. -/
theorem Edited.cost_le (edited : Edited s t) (u : List Char) : cost s u ≤ cost t u + 1 := by
  cases edited with
  | insert before after c => exact cost_append_le before (cost_le_cons_left c after) u
  | delete before after c => exact cost_append_le before (cost_cons_left_le c after) u
  | substitute before after c d => exact cost_append_le before (cost_substitute_le c d after) u

/-- So do several edits by at most their number. -/
theorem Turns.cost_le_add {n : Nat} (turns : Turns n s t) (u : List Char) :
    cost s u ≤ cost t u + n := by
  induction n generalizing s with
  | zero =>
    obtain rfl := zero_iff.mp turns
    exact Nat.le_refl _
  | succ n ih =>
    obtain ⟨middle, first, rest⟩ := succ_iff.mp turns
    have := first.cost_le u
    have := ih rest
    omega

theorem Turns.cost_le {n : Nat} (turns : Turns n s t) : cost s t ≤ n := by
  have bound := turns.cost_le_add t
  rwa [cost_self, Nat.zero_add] at bound

theorem turns_from_nil (t : List Char) : Turns t.length [] t := by
  induction t with
  | nil => exact Turns.zero_iff.mpr rfl
  | cons d t ih => exact ih.snoc (.insert [] t d)

theorem turns_to_nil (s : List Char) : Turns s.length s [] := by
  induction s with
  | nil => exact Turns.zero_iff.mpr rfl
  | cons c s ih => exact Turns.succ_iff.mpr ⟨s, .delete [] s c, ih⟩

theorem turns_cost (s t : List Char) : Turns (cost s t) s t := by
  fun_induction cost s t with
  | case1 t => exact turns_from_nil t
  | case2 c s => exact turns_to_nil (c :: s)
  | case3 c s d t delete insert change =>
    have deleting : Turns (cost s (d :: t) + 1) (c :: s) (d :: t) :=
      Turns.succ_iff.mpr ⟨s, .delete [] s c, delete⟩
    have inserting : Turns (cost (c :: s) t + 1) (c :: s) (d :: t) := insert.snoc (.insert [] t d)
    have kept : Turns (cost s t) (c :: s) (c :: t) := change.carry fun _ _ => .cons c
    have changing : Turns (cost s t + if c = d then 0 else 1) (c :: s) (d :: t) := by
      split
      · next same => exact same ▸ kept
      · exact kept.snoc (.substitute [] t c d)
    exact min_rec' (Turns · _ _) (min_rec' (Turns · _ _) deleting inserting) changing

theorem length_le_add_cost (s t : List Char) : s.length ≤ t.length + cost s t := by
  simpa using (turns_cost s t).cost_le_add []

/-- Texts cost the same from behind. -/
theorem cost_reverse (s t : List Char) : cost s.reverse t.reverse = cost s t := by
  have turned : ∀ s t : List Char, cost s.reverse t.reverse ≤ cost s t := fun s t =>
    ((turns_cost s t).carry fun _ _ => Edited.reverse).cost_le
  refine Nat.le_antisymm (turned s t) ?_
  simpa using turned s.reverse t.reverse

/-- The values of a measure at the prefixes of a text, shortest first, each prefix read backwards and
on top of what was seen before it. -/
def along (measure : List Char → Nat) (seen : List Char) : List Char → List Nat
  | [] => [measure seen]
  | d :: rest => measure seen :: along measure (d :: seen) rest

theorem getLastD_along (measure : List Char → Nat) (seen t : List Char) (n : Nat) :
    (along measure seen t).getLastD n = measure (t.reverse ++ seen) := by
  induction t generalizing seen n with
  | nil => rfl
  | cons d t ih =>
    rw [along, List.getLastD_cons, ih, List.reverse_cons, List.append_assoc]
    rfl

theorem along_length (seen t : List Char) :
    along List.length seen t = List.range' seen.length (t.length + 1) := by
  induction t generalizing seen with
  | nil => rfl
  | cons d t ih =>
    rw [along, ih]
    rfl

/-- A row is computed from the row above, behind a cell that is right. -/
theorem cells_along (c : Char) (above seen t : List Char) :
    cost (c :: above) seen :: cells c (cost (c :: above) seen) t (along (cost above) seen t) =
      along (cost (c :: above)) seen t := by
  induction t generalizing seen with
  | nil => rfl
  | cons d t ih =>
    obtain ⟨row, begins⟩ :
        ∃ row, along (cost above) (d :: seen) t = cost above (d :: seen) :: row := by
      cases t <;> exact ⟨_, rfl⟩
    rw [along, along, ← ih, begins, cells, ← cost_cons_cons]

theorem nextRow_along (c : Char) (above t : List Char) :
    nextRow t (along (cost above) [] t) (c, above.length) = along (cost (c :: above)) [] t := by
  rw [← cells_along, cost_nil_right]
  rfl

theorem rows_along (s above t : List Char) :
    (s.zipIdx above.length).foldl (nextRow t) (along (cost above) [] t) =
      along (cost (s.reverse ++ above)) [] t := by
  induction s generalizing above with
  | nil => rfl
  | cons c s ih =>
    rw [List.zipIdx_cons, List.foldl_cons, nextRow_along]
    simpa using ih (c :: above)

theorem lastRow_eq (s t : List Char) : lastRow s t = along (cost s.reverse) [] t := by
  have first : List.range (t.length + 1) = along (cost []) [] t := by
    rw [List.range_eq_range', show cost [] = List.length from funext cost_nil_left, along_length]
    rfl
  have rows := rows_along s [] t
  rwa [← first, List.append_nil] at rows

theorem distanceFromLonger_eq (s t : List Char) : distanceFromLonger s t = cost s t := by
  unfold distanceFromLonger
  cases t with
  | nil => simp
  | cons d t =>
    rw [if_neg (by simp), lastRow_eq, getLastD_along, List.append_nil, cost_reverse]

theorem distance_eq_cost (s t : String) : distance s t = cost s.toList t.toList := by
  unfold distance
  rw [distanceFromLonger_eq, distanceFromLonger_eq, cost_comm t.toList, ite_self]

/-- The distance between two texts is the least number of edits that turn the first into the
second. -/
theorem distance_isLeast (s t : String) :
    IsLeast {n | Turns n s.toList t.toList} (distance s t) := by
  rw [distance_eq_cost]
  exact ⟨turns_cost _ _, fun n turns => Turns.cost_le turns⟩

end ScriptTypes.Text
