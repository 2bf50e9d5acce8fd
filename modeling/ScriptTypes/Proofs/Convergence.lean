import Mathlib.Data.Finset.Card
import ScriptTypes.Proofs.Fixpoint

/-! There are finitely many lawful tables, and a pass depends on the tables alone. So passes that
make changes forever return to tables they have had before. Unless a type was overturned in between,
that is impossible, since then the tables only get heavier. Types are overturned only by functions
that are bound to a name. -/

namespace ScriptTypes

namespace Program

variable {p : Program} {st after : State}

/-- Some node overturns a type when these are settled in turn. -/
def OverturnsAlong (p : Program) : List Node → State → Prop
  | [], _ => False
  | n :: nodes, st => (∃ f b d, p.Overturns st n f b d) ∨
      p.OverturnsAlong nodes ((p.settle n).outcome st).2

def OverturnsIn (p : Program) (st : State) (k : Nat) : Prop :=
  p.OverturnsAlong p.root.descendants (p.refreshed ((p.paced k).outcome st).2)

theorem settleAll_heavier (formed : p.WellFormed) {nodes : List Node}
    (inside : ∀ n ∈ nodes, n ∈ p.root.preorder) (lawful : st.Lawful p) {total : Nat}
    (ran : (p.settleAll nodes).outcome st = (.ok total, after))
    (kept : ¬ p.OverturnsAlong nodes st) :
    p.weight st ≤ p.weight after ∧ (total ≠ 0 → p.weight st < p.weight after) := by
  induction nodes generalizing st total with
  | nil =>
    cases ran
    exact ⟨Nat.le_refl _, fun some => absurd rfl some⟩
  | cons n nodes ih =>
    obtain ⟨changed, middle, rest, head, tail, rfl⟩ := settleAll_cons_ok ran
    have member := inside n List.mem_cons_self
    have still := (settle_keeps formed member lawful).lawful
    obtain ⟨accepted, learns⟩ := settle_learns formed member lawful
      fun f b d overturns => kept (.inl ⟨f, b, d, overturns⟩)
    have told : changed = accepted := learns.answer changed (by rw [head])
    have first := learns.weight_le
    have grown := learns.heavier
    have later : ¬ p.OverturnsAlong nodes middle := by
      intro overturns
      refine kept (.inr ?_)
      rw [head]
      exact overturns
    rw [head] at still first grown
    obtain ⟨second, more⟩ := ih (fun m listed => inside m (List.mem_cons_of_mem _ listed)) still tail
      later
    refine ⟨Nat.le_trans first second, ?_⟩
    intro some
    cases changed with
    | true => exact Nat.lt_of_lt_of_le (grown told.symm) second
    | false => exact Nat.lt_of_le_of_lt first (more some)

theorem pass_heavier (formed : p.WellFormed) (lawful : st.Lawful p) {k : Nat}
    (changes : p.Changes st k) (kept : ¬ p.OverturnsIn st k) :
    tablesWeight p.settings.maxDepth (p.tablesAt st k) <
      tablesWeight p.settings.maxDepth (p.tablesAt st (k + 1)) := by
  obtain ⟨before, count, after, began, pass, some⟩ := changes
  have still := (paced_keeps formed lawful k).lawful
  unfold OverturnsIn at kept
  rw [began] at still kept
  have heavier := (settleAll_heavier formed below_root (refreshed_lawful still) pass kept).2 some
  unfold tablesAt
  rw [paced_succ_of began pass, began]
  unfold weight at heavier
  rw [refreshed_tables] at heavier
  exact heavier

theorem passes_heavier (formed : p.WellFormed) (lawful : st.Lawful p) {i j : Nat} (order : i < j)
    (changes : ∀ k, i ≤ k → k < j → p.Changes st k)
    (kept : ∀ k, i ≤ k → k < j → ¬ p.OverturnsIn st k) :
    tablesWeight p.settings.maxDepth (p.tablesAt st i) <
      tablesWeight p.settings.maxDepth (p.tablesAt st j) := by
  induction j, order using Nat.le_induction with
  | base =>
    have least := Nat.le_refl i
    have most := Nat.lt_succ_self i
    exact pass_heavier formed lawful (changes i least most) (kept i least most)
  | succ j order ih =>
    have first := ih (fun k least most => changes k least (by omega))
      fun k least most => kept k least (by omega)
    have last := pass_heavier formed lawful (changes j (by omega) (by omega))
      (kept j (by omega) (by omega))
    exact Nat.lt_trans first last

theorem overturns_of_returns (formed : p.WellFormed) (lawful : st.Lawful p) {i j : Nat}
    (order : i < j) (changes : ∀ k < j, p.Changes st k)
    (returns : p.tablesAt st i = p.tablesAt st j) : ∃ k, i ≤ k ∧ k < j ∧ p.OverturnsIn st k := by
  by_contra none
  have heavier := passes_heavier formed lawful order (fun k _ most => changes k most)
    fun k least most overturns => none ⟨k, least, most, overturns⟩
  rw [returns] at heavier
  exact Nat.lt_irrefl _ heavier

theorem tablesAt_lawful (formed : p.WellFormed) (lawful : st.Lawful p) (k : Nat) :
    p.tablesAt st k ∈ {tables : Array TypeTable | tables.size = p.scopes.size ∧
      ∀ t ∈ tables, TypeTable.Lawful p.names p.settings.maxDepth t} := by
  have still := (paced_keeps formed lawful k).lawful
  exact ⟨still.size, still.tables⟩

/-- How many lawful states of the tables there are. -/
noncomputable def tableCount (p : Program) : Nat :=
  (TypeTable.finite_tables p.names p.settings.maxDepth p.scopes.size).toFinset.card

/-- Among more passes than there are lawful tables, two start from the same tables. -/
theorem exists_return (formed : p.WellFormed) (lawful : st.Lawful p) :
    ∃ i j, i < j ∧ j ≤ p.tableCount ∧ p.tablesAt st i = p.tablesAt st j := by
  have finite := TypeTable.finite_tables p.names p.settings.maxDepth p.scopes.size
  have more : finite.toFinset.card < (Finset.range (p.tableCount + 1)).card := by
    rw [Finset.card_range]
    exact Nat.lt_succ_self _
  have inside : Set.MapsTo (p.tablesAt st) (Finset.range (p.tableCount + 1)) finite.toFinset := by
    intro k _
    exact finite.mem_toFinset.mpr (tablesAt_lawful formed lawful k)
  obtain ⟨i, low, j, high, apart, same⟩ :=
    Finset.exists_ne_map_eq_of_card_lt_of_maps_to more inside
  have iBound := Finset.mem_range.mp low
  have jBound := Finset.mem_range.mp high
  rcases Nat.lt_or_gt_of_ne apart with order | order
  · exact ⟨i, j, order, by omega, same⟩
  · exact ⟨j, i, order, by omega, same.symm⟩

theorem paced_of_changes {k : Nat} (changes : p.Changes st k) :
    ∃ reached, (p.paced (k + 1)).outcome st = (.ok (), reached) := by
  obtain ⟨before, count, after, began, pass, _⟩ := changes
  exact ⟨_, paced_succ_of began pass⟩

theorem changes_of_same_tables (formed : p.WellFormed) (lawful : st.Lawful p) {i j : Nat}
    {reached : State} (changes : p.Changes st i) (began : (p.paced j).outcome st = (.ok (), reached))
    (same : p.tablesAt st i = p.tablesAt st j) :
    p.Changes st j ∧ p.tablesAt st (i + 1) = p.tablesAt st (j + 1) := by
  obtain ⟨before, count, after, first, pass, some⟩ := changes
  have still := (paced_keeps formed lawful i).lawful
  have sizes := (paced_keeps formed lawful i).size.trans (paced_keeps formed lawful j).size.symm
  unfold tablesAt at same
  rw [first, began] at same sizes
  rw [first] at still
  obtain ⟨answer, alike⟩ := pass_matched formed still same sizes
  rw [pass] at answer alike
  have again : p.pass.outcome reached = (.ok count, (p.pass.outcome reached).2) :=
    Prod.ext answer.symm rfl
  refine ⟨⟨reached, count, _, began, again, some⟩, ?_⟩
  unfold tablesAt
  rw [paced_succ_of first pass, paced_succ_of began again]
  exact alike.tables

theorem changes_of_return (formed : p.WellFormed) (lawful : st.Lawful p) {i j : Nat}
    (order : i < j) (changes : ∀ k < j, p.Changes st k)
    (returns : p.tablesAt st i = p.tablesAt st j) (k : Nat) : p.Changes st k := by
  -- From the return on, the pass after `j + m` others repeats the one after `i + m`.
  have onward : ∀ m, p.tablesAt st (i + m) = p.tablesAt st (j + m) ∧
      ∀ k < j + m, p.Changes st k := by
    intro m
    induction m with
    | zero => exact ⟨returns, changes⟩
    | succ m ih =>
      obtain ⟨same, earlier⟩ := ih
      obtain ⟨reached, began⟩ := paced_of_changes (earlier (j + m - 1) (by omega))
      rw [Nat.sub_add_cancel (by omega)] at began
      obtain ⟨next, after⟩ :=
        changes_of_same_tables formed lawful (earlier (i + m) (by omega)) began same
      refine ⟨after, ?_⟩
      intro k most
      rcases Nat.lt_succ_iff_lt_or_eq.mp most with less | rfl
      · exact earlier k less
      · exact next
  exact (onward (k + 1)).2 k (by omega)

/-- Passes make changes forever exactly if the tables return while they do. -/
theorem changes_forever_iff (formed : p.WellFormed) (lawful : st.Lawful p) :
    (∀ k, p.Changes st k) ↔
      ∃ i j, i < j ∧ (∀ k < j, p.Changes st k) ∧ p.tablesAt st i = p.tablesAt st j := by
  constructor
  · intro changes
    obtain ⟨i, j, order, _, same⟩ := exists_return formed lawful
    exact ⟨i, j, order, fun k _ => changes k, same⟩
  · rintro ⟨i, j, order, changes, same⟩
    exact changes_of_return formed lawful order changes same

/-- Inference reaches the pass limit exactly if all passes up to it make changes. It does so under
every limit exactly if the tables return, and then a type is overturned on the way. -/
theorem stalls_iff {settings : Settings} {tree : Json} (accepted : ofJson settings tree = .ok p)
    (reached : p.Reached st) :
    (p.Stalls st ↔ ∀ k < p.passLimit, p.Changes st k) ∧
    ((∀ k, p.Changes st k) ↔
      ∃ i j, i < j ∧ (∀ k < j, p.Changes st k) ∧ p.tablesAt st i = p.tablesAt st j) ∧
    ∀ i j, i < j → (∀ k < j, p.Changes st k) → p.tablesAt st i = p.tablesAt st j →
      ∃ k, i ≤ k ∧ k < j ∧ p.OverturnsIn st k := by
  have formed := wellFormed_of_ofJson accepted
  have lawful := reached.lawful formed
  refine ⟨stalls_iff_changes formed lawful, changes_forever_iff formed lawful, ?_⟩
  intro i j order changes returns
  exact overturns_of_returns formed lawful order changes returns

open Raw in
/-- In `v = 1; function f() { return "a"[f()]; return f().charCodeAt(); return v; } v = "s";` each
pass gives `f` the other one of `func<int>` and `func<string>`. -/
def alternating : Json :=
  program [
    assignment "v" (literal (.int 1)),
    function "f" [
      element (literal (.text "a")) (call (identifier "f")),
      call (property (call (identifier "f")) "charCodeAt"),
      identifier "v"],
    assignment "v" (literal (.text "s"))]

theorem alternating_returns : ∃ p, ofJson .standard alternating = .ok p ∧
    (∀ k < 2, p.Changes p.start k) ∧ p.tablesAt p.start 0 = p.tablesAt p.start 2 := by
  decide +kernel

theorem alternating_stalls : ∃ p, ofJson .standard alternating = .ok p ∧ p.Stalls p.start ∧
    (∀ k, p.Changes p.start k) ∧ ∃ k < 2, p.OverturnsIn p.start k := by
  obtain ⟨p, accepted, changes, returns⟩ := alternating_returns
  obtain ⟨limit, forever, overturns⟩ := stalls_iff accepted .start
  have always := forever.mpr ⟨0, 2, by decide, changes, returns⟩
  obtain ⟨k, _, most, overturned⟩ := overturns 0 2 (by decide) changes returns
  exact ⟨p, accepted, limit.mpr fun k _ => always k, always, k, most, overturned⟩

theorem not_always_converges :
    ¬ ∀ tree p, ofJson .standard tree = .ok p → ¬ p.Stalls p.start := by
  intro converges
  obtain ⟨p, accepted, changes, returns⟩ := alternating_returns
  have formed := wellFormed_of_ofJson accepted
  have always := changes_of_return formed p.start_lawful (by decide) changes returns
  exact converges alternating p accepted
    ((stalls_iff_changes formed p.start_lawful).mpr fun k _ => always k)

/-- Under a limit as high as the number of lawful tables, only overturned types lead to it. -/
theorem overturns_of_stalls (formed : p.WellFormed) (lawful : st.Lawful p)
    (enough : p.tableCount ≤ p.passLimit) (stalls : p.Stalls st) : ∃ k, p.OverturnsIn st k := by
  have changes := (stalls_iff_changes formed lawful).mp stalls
  obtain ⟨i, j, order, bound, same⟩ := exists_return formed lawful
  obtain ⟨k, _, _, overturns⟩ := overturns_of_returns formed lawful order
    (fun k most => changes k (by omega)) same
  exact ⟨k, overturns⟩

theorem not_overturnsAlong {nodes : List Node}
    (plain : ∀ n ∈ nodes, Environment.recorded? n = none) : ¬ p.OverturnsAlong nodes st := by
  induction nodes generalizing st with
  | nil => exact id
  | cons n nodes ih =>
    rintro (⟨f, b, d, overturns⟩ | later)
    · have records := overturns.records
      rw [plain n List.mem_cons_self] at records
      cases records
    · exact ih (fun m listed => plain m (List.mem_cons_of_mem _ listed)) later

end Program

def Node.bindsFunction (n : Node) : Bool :=
  match n.kind with
  | .functionDeclaration | .functionExpression =>
    match n.content .id with
    | .empty => false
    | _ => true
  | .statement .variableDeclarator =>
    match n.content .init with
    | .one value => value.kind.isFunction
    | _ => false
  | _ => false

theorem Node.recorded_of_bindsFunction {n : Node} {scopes : Nat} (placed : n.Placed scopes)
    (unbound : n.bindsFunction = false) : Environment.recorded? n = none := by
  unfold bindsFunction at unbound
  unfold Environment.recorded?
  split
  · next expression own declarator form =>
    have named : Binding.ofContent (n.content .id) = .ok own := placed.own _ _ _ form
    rw [show n.kind = _ from congrArg Form.kind form] at unbound
    have anonymous : n.content .id = .empty := by
      cases held : n.content .id with
      | empty => rfl
      | _ => cases expression <;> simp [Form.kind, held] at unbound
    rw [anonymous] at named
    cases named
    rfl
  · next form =>
    rw [show n.kind = _ from congrArg Form.kind form] at unbound
    cases held : n.content .init with
    | one value =>
      simp only [Form.kind, held] at unbound
      change value.form.kind.isFunction = false at unbound
      dsimp only
      split
      · next expression own declarator inner =>
        rw [inner] at unbound
        cases expression <;> cases unbound
      · rfl
    | _ => rfl
  · rfl

namespace Program

/-- In a tree that binds no function to a name, enough passes settle all types. -/
theorem converges_of_unbound {settings : Settings} {tree : Json}
    (accepted : ofJson settings tree = .ok p)
    (unbound : ∀ n ∈ p.root.preorder, n.bindsFunction = false) :
    ∃ enough, ∀ limit (positive : 0 < limit), enough ≤ limit →
      ∃ q, ofJson { settings with minPasses := limit, minPasses_pos := positive } tree = .ok q ∧
        ∀ st, q.Reached st → ¬ q.Stalls st := by
  obtain ⟨root, read, rfl⟩ := ofJson_eq_ok accepted
  refine ⟨(ofTree settings root).tableCount, ?_⟩
  intro limit positive high
  have relaxed : ofJson { settings with minPasses := limit, minPasses_pos := positive } tree =
      .ok (ofTree { settings with minPasses := limit, minPasses_pos := positive } root) := by
    unfold ofJson
    rw [read]
    rfl
  refine ⟨_, relaxed, ?_⟩
  intro st reached stalls
  have formed := wellFormed_of_ofJson relaxed
  obtain ⟨k, overturns⟩ := overturns_of_stalls formed (reached.lawful formed)
    (Nat.le_trans high (Nat.le_max_left _ _)) stalls
  refine not_overturnsAlong ?_ overturns
  intro n below
  have member := below_root n below
  exact Node.recorded_of_bindsFunction (formed.placed n member) (unbound n member)

open Raw in
/-- In `x = [x]; f = function () { return x; }; y = f();` a function is only assigned. -/
def deepening : Json :=
  program [
    assignment "x" (array [identifier "x"]),
    assignment "f" (closure [identifier "x"]),
    assignment "y" (call (identifier "f"))]

theorem deepening_converges :
    ∃ p, ofJson .standard deepening = .ok p ∧ (∀ n ∈ p.root.preorder, n.bindsFunction = false) ∧
      ∃ enough, ∀ limit (positive : 0 < limit), enough ≤ limit →
        ∃ q, ofJson { Settings.standard with minPasses := limit, minPasses_pos := positive }
            deepening = .ok q ∧ ∀ st, q.Reached st → ¬ q.Stalls st := by
  obtain ⟨p, accepted, unbound⟩ : ∃ p, ofJson .standard deepening = .ok p ∧
      ∀ n ∈ p.root.preorder, n.bindsFunction = false := by decide +kernel
  exact ⟨p, accepted, unbound, converges_of_unbound accepted unbound⟩

end Program

end ScriptTypes
