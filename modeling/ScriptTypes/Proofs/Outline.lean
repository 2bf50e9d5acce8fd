import ScriptTypes.CommandLine.Run
import ScriptTypes.Proofs.Bindings
import ScriptTypes.Proofs.Members
import ScriptTypes.Proofs.Tree.Grammar
import ScriptTypes.Proofs.Tree.Raw

/-! An outline has a line for every node, parents first, which shows how deep the node stands and
what its kind is. Depths and kinds in this order are enough to find the tree again: what is inside a
node ends where the next line is no deeper than the node's own. -/

namespace ScriptTypes

inductive KindTree where
  | mk (kind : Kind) (inner : List KindTree)

namespace KindTree

/-- What holds of no trees holds of all lists of trees, if it passes from what is inside a tree and
what is behind it to the tree with what is behind it. -/
theorem forest_induction {motive : List KindTree → Prop} (nil : motive [])
    (cons : ∀ kind inner trees, motive inner → motive trees → motive (mk kind inner :: trees))
    (trees : List KindTree) : motive trees := by
  refine @KindTree.rec_1 (fun tree => ∀ trees, motive trees → motive (tree :: trees)) motive
    ?_ nil ?_ trees
  · intro kind inner inside trees behind
    exact cons kind inner trees inside behind
  · intro tree trees first behind
    exact first trees behind

mutual
/-- The depth and the kind of every node, parents first. -/
def marks (depth : Nat) : KindTree → List (Nat × Kind)
  | mk kind inner => (depth, kind) :: marksAll (depth + 1) inner
def marksAll (depth : Nat) : List KindTree → List (Nat × Kind)
  | [] => []
  | tree :: trees => marks depth tree ++ marksAll depth trees
end

theorem marksAll_eq_flatMap (depth : Nat) (trees : List KindTree) :
    marksAll depth trees = trees.flatMap (marks depth) := by
  induction trees with
  | nil => rfl
  | cons tree trees ih => rw [marksAll, ih, List.flatMap_cons]

/-- Marks that begin less deep, if there are any. -/
def Shallower (depth : Nat) (rest : List (Nat × Kind)) : Prop := ∀ mark ∈ rest.head?, mark.1 < depth

variable {depth : Nat} {rest more : List (Nat × Kind)}

theorem Shallower.behind (shallower : Shallower depth rest) (trees : List KindTree) :
    Shallower (depth + 1) (marksAll depth trees ++ rest) := by
  cases trees with
  | nil =>
    intro mark first
    have := shallower mark first
    omega
  | cons tree trees =>
    cases tree
    simp [Shallower, marksAll, marks]

theorem Shallower.not_marks (shallower : Shallower depth rest) (tree : KindTree)
    (trees : List KindTree) : rest ≠ marksAll depth (tree :: trees) ++ more := by
  rintro rfl
  cases tree
  simp [Shallower, marksAll, marks] at shallower

/-- Marks tell the trees that they come from and where they end. -/
theorem marksAll_cancel {trees others : List KindTree} (left : Shallower depth rest)
    (right : Shallower depth more)
    (same : marksAll depth trees ++ rest = marksAll depth others ++ more) :
    trees = others ∧ rest = more := by
  -- Where one list of trees ends and the other goes on, the next mark is too shallow to be a tree's.
  induction trees using forest_induction generalizing depth others rest more with
  | nil =>
    cases others with
    | nil => exact ⟨rfl, same⟩
    | cons other others => exact absurd same (left.not_marks other others)
  | cons kind inner trees inside behind =>
    cases others with
    | nil => exact absurd same.symm (right.not_marks _ trees)
    | cons other others =>
      obtain ⟨_, within⟩ := other
      simp only [marksAll, marks, List.cons_append, List.append_assoc, List.cons.injEq,
        Prod.mk.injEq] at same
      obtain ⟨⟨_, rfl⟩, split⟩ := same
      obtain ⟨rfl, later⟩ := inside (left.behind trees) (right.behind others) split
      obtain ⟨rfl, ends⟩ := behind left right later
      exact ⟨rfl, ends⟩

theorem eq_of_marks {tree other : KindTree} (same : tree.marks 0 = other.marks 0) :
    tree = other := by
  have none : Shallower 0 [] := by simp [Shallower]
  have alone : ∀ tree : KindTree, marksAll 0 [tree] ++ [] = tree.marks 0 := by
    intro tree
    simp [marksAll]
  have trees := (marksAll_cancel none none ((alone tree).trans (same.trans (alone other).symm))).1
  exact List.singleton_inj.mp trees

end KindTree

theorem Kind.text_clean (kind : Kind) :
    '\n' ∉ kind.text.toList ∧ kind.text.toList.head? ≠ some ' ' := by
  cases kind with
  | statement kind => cases kind <;> decide +kernel
  | _ => decide +kernel

namespace Outline

theorem toList_line (depth : Nat) (kind : Kind) :
    (line depth kind).toList = List.replicate (2 * depth) ' ' ++ kind.text.toList := by
  simp [line]

theorem newline_notMem_line (depth : Nat) (kind : Kind) : '\n' ∉ (line depth kind).toList := by
  rw [toList_line]
  simp [kind.text_clean.1]

theorem blanks_line (depth : Nat) (kind : Kind) :
    (line depth kind).toList.takeWhile (· = ' ') = List.replicate (2 * depth) ' ' := by
  have blank : kind.text.toList.takeWhile (· = ' ') = [] := by
    have first := kind.text_clean.2
    cases letters : kind.text.toList with
    | nil => rfl
    | cons c cs =>
      rw [letters] at first
      exact List.takeWhile_cons_of_neg (by simpa using first)
  rw [toList_line, List.takeWhile_append_of_pos (by simp), blank, List.append_nil]

theorem eq_of_line {depth other : Nat} {kind another : Kind}
    (same : line depth kind = line other another) : depth = other ∧ kind = another := by
  have blanks := congrArg (fun s : String => (s.toList.takeWhile (· = ' ')).length) same
  simp only [blanks_line, List.length_replicate] at blanks
  obtain rfl : depth = other := by omega
  have letters := congrArg String.toList same
  rw [toList_line, toList_line] at letters
  exact ⟨rfl, Kind.eq_of_text (String.toList_inj.mp (List.append_cancel_left letters))⟩

end Outline

namespace Node

mutual
def kinds : Node → KindTree
  | mk head children => .mk head.kind (kindsAll children)
def kindsAll : List Node → List KindTree
  | [] => []
  | node :: nodes => kinds node :: kindsAll nodes
end

theorem kindsAll_eq_map (nodes : List Node) : kindsAll nodes = nodes.map kinds := by
  induction nodes with
  | nil => rfl
  | cons node nodes ih => rw [kindsAll, ih, List.map_cons]

theorem marks_kinds (n : Node) (depth : Nat) :
    n.kinds.marks depth =
      (depth, n.kind) :: n.children.flatMap fun c => c.kinds.marks (depth + 1) := by
  cases n with
  | mk head children =>
    rw [kinds, KindTree.marks, KindTree.marksAll_eq_flatMap, kindsAll_eq_map, List.flatMap_map]
    rfl

theorem linesAll_entries (depth : Nat) (nodes : List Node) :
    Outline.linesAll depth (entries nodes) = nodes.flatMap fun n => n.entry.lines depth := by
  induction nodes with
  | nil => rfl
  | cons node nodes ih => rw [entries, Outline.linesAll, ih, List.flatMap_cons]

/-- A node without children and one with children show alike. -/
theorem lines_entry (n : Node) (depth : Nat) :
    n.entry.lines depth =
      Outline.line depth n.kind :: n.children.flatMap fun c => c.entry.lines (depth + 1) := by
  cases n with
  | mk head children =>
    rw [← linesAll_entries]
    unfold entry
    split
    · next childless =>
      change _ = _ :: Outline.linesAll (depth + 1) (entries children)
      rw [childless]
      rfl
    · rfl

theorem lines_entry_eq_marks (n : Node) (depth : Nat) :
    n.entry.lines depth = (n.kinds.marks depth).map fun mark => Outline.line mark.1 mark.2 := by
  induction n using children_induction generalizing depth with
  | step n ih =>
    rw [lines_entry, marks_kinds, List.map_cons, List.map_flatMap]
    congr 1
    exact List.flatMap_congr fun c child => ih c child (depth + 1)

theorem outlineLines_eq_marks (n : Node) :
    n.outlineLines = (n.kinds.marks 0).map fun mark => Outline.line mark.1 mark.2 := by
  have first : Outline.line 0 n.kind = n.kind.text := by simp [Outline.line]
  rw [← lines_entry_eq_marks, lines_entry, first, ← linesAll_entries]
  rfl

/-- The nodes of a tree that a node is below. -/
def ancestors (root n : Node) : List Node :=
  root.preorder.filter fun m => n.id ∈ m.descendants.map Node.id

theorem preorderAll_closed {nodes : List Node} {m n : Node} (member : m ∈ preorderAll nodes)
    (below : n ∈ m.descendants) : n ∈ preorderAll nodes := by
  rw [preorderAll_eq_flatMap, List.mem_flatMap] at member ⊢
  obtain ⟨top, listed, inside⟩ := member
  exact ⟨top, listed, preorder_trans (mem_preorder.mpr (.inr below)) inside⟩

theorem filter_above_eq_nil {nodes : List Node} {n : Node}
    (outside : n.id ∉ (preorderAll nodes).map Node.id) :
    (preorderAll nodes).filter (fun m => n.id ∈ m.descendants.map Node.id) = [] := by
  simp only [List.filter_eq_nil_iff, decide_eq_true_eq]
  intro m member listed
  obtain ⟨below, inside, same⟩ := List.mem_map.mp listed
  exact outside (List.mem_map.mpr ⟨below, preorderAll_closed member inside, same⟩)

theorem ancestors_self {root : Node} (distinct : (root.preorder.map Node.id).Nodup) :
    root.ancestors root = [] := by
  rw [preorder_eq, List.map_cons] at distinct
  have outside : root.id ∉ root.descendants.map Node.id := (List.nodup_cons.mp distinct).1
  rw [ancestors, preorder_eq, List.filter_cons_of_neg (by simpa using outside)]
  exact filter_above_eq_nil outside

/-- A node has one ancestor more than in the tree of the child that it is in. -/
theorem ancestors_below {root c n : Node} (distinct : (root.preorder.map Node.id).Nodup)
    (child : c ∈ root.children) (inside : n ∈ c.preorder) :
    root.ancestors n = root :: c.ancestors n := by
  obtain ⟨before, after, split⟩ := List.append_of_mem child
  have parts : root.descendants = preorderAll before ++ (c.preorder ++ preorderAll after) := by
    rw [descendants, split, preorderAll_append, preorderAll]
  have below : n.id ∈ root.descendants.map Node.id :=
    List.mem_map_of_mem (mem_descendants.mpr ⟨c, child, inside⟩)
  rw [preorder_eq, List.map_cons, List.nodup_cons, parts, List.map_append,
    List.map_append] at distinct
  have here : n.id ∈ c.preorder.map Node.id := List.mem_map_of_mem inside
  have notBefore : n.id ∉ (preorderAll before).map Node.id := fun there =>
    List.disjoint_of_nodup_append distinct.2 there (List.mem_append_left _ here)
  have notAfter : n.id ∉ (preorderAll after).map Node.id := fun there =>
    List.disjoint_of_nodup_append distinct.2.of_append_right here there
  rw [ancestors, preorder_eq, List.filter_cons_of_pos (by simpa using below), parts,
    List.filter_append, List.filter_append, filter_above_eq_nil notBefore,
    filter_above_eq_nil notAfter, List.nil_append, List.append_nil]
  rfl

theorem marks_kinds_eq_preorder {root : Node} (distinct : (root.preorder.map Node.id).Nodup)
    (depth : Nat) :
    root.kinds.marks depth =
      root.preorder.map fun n => (depth + (root.ancestors n).length, n.kind) := by
  induction root using children_induction generalizing depth with
  | step root ih =>
    rw [marks_kinds, preorder_eq, List.map_cons, ancestors_self distinct, descendants,
      preorderAll_eq_flatMap, List.map_flatMap]
    congr 1
    refine List.flatMap_congr fun c child => ?_
    have inTree : c ∈ root.preorder := mem_preorder.mpr (.inr (mem_descendants_of_child child))
    have part : (c.preorder.map Node.id).Nodup := distinct.sublist ((preorder_sublist inTree).map _)
    rw [ih c child part]
    refine List.map_congr_left fun n inside => ?_
    rw [ancestors_below distinct child inside, List.length_cons]
    congr 1
    omega

end Node

namespace CommandLine

/-- Lines that are ended one by one are what the text splits into. -/
theorem splitOn_unlines {lines : List String} (clean : ∀ line ∈ lines, '\n' ∉ line.toList) :
    (unlines lines).toList.splitOn '\n' = lines.map String.toList ++ [[]] := by
  induction lines with
  | nil => rfl
  | cons line lines ih =>
    obtain ⟨first, others⟩ := List.forall_mem_cons.mp clean
    have letters :
        (unlines (line :: lines)).toList = line.toList ++ '\n' :: (unlines lines).toList := by
      simp [unlines, String.join_cons]
    rw [letters, List.splitOn_append_cons_self_of_not_mem first, ih others]
    rfl

/-- The arguments ask for an outline and get it. -/
def Outlines (load : String → Source) (args : List String) (out : String) : Prop :=
  (∃ i, Invocation.ofArguments args = .ok i ∧ i.task.map Task.command = some .outline) ∧
    ∃ o, run load args = .ok o ∧ o.exit = 0 ∧ o.out = out

/-- The arguments lead to this tree, from which this program is read. -/
def Loads (load : String → Source) (args : List String) (tree : Json) (p : Program) : Prop :=
  ∃ i t maxDepth settings, Invocation.ofArguments args = .ok i ∧ i.task = some t ∧
    load t.path = .tree tree ∧ i.maxDepth.value? = .ok maxDepth ∧
    Settings.standard.change { maxDepth } = .ok settings ∧ Program.ofJson settings tree = .ok p

/-- The text shows the nodes of the program as they were numbered when its tree was read. -/
structure Depicts (out : String) (tree : Json) (p : Program) : Prop where
  /-- A line for each node, which has two blanks for each of its ancestors. Every line is ended. -/
  lines : out.toList.splitOn '\n' = (p.root.preorder.map fun n =>
    List.replicate (2 * (p.root.ancestors n).length) ' ' ++ n.kind.text.toList) ++ [[]]
  numbered : p.root.preorder.map Node.id = List.range p.nodeCount
  counted : ∃ last, readProgram tree ⟨0, 1⟩ = .ok (p.root, last) ∧ last.node = p.nodeCount

variable {load other : String → Source} {args arguments : List String} {out text : String}

theorem exit_of_failed {label : String} {events : List Event} {failure : Failure} {o : Outcome}
    (ended : failed label events failure = .ok o) : o.exit = 1 := by
  cases failure with
  | report r =>
    cases ended
    rfl
  | fault f => cases ended

theorem runTree_outline {level : Level} {settings : Settings} {tree : Json} {o : Outcome}
    (ran : runTree level .outline settings tree = .ok o) (done : o.exit = 0) :
    ∃ p, Program.ofJson settings tree = .ok p ∧ o.out = unlines p.root.outlineLines := by
  have unfailed : ∀ label events failure, failed label events failure ≠ .ok o := by
    intro label events failure ended
    cases (exit_of_failed ended).symm.trans done
  unfold runTree at ran
  split at ran
  · exact absurd ran (unfailed _ _ _)
  · next p accepted =>
    split at ran
    · exact absurd ran (unfailed _ _ _)
    · split at ran
      · exact absurd ran (unfailed _ _ _)
      · next printed =>
        cases ran
        cases printed
        exact ⟨p, accepted, rfl⟩

theorem runTask_eq_runTree {level : Level} {maxDepth : Setting Int} {t : Task} {tree : Json}
    {depth : Option Int} {settings : Settings} (clean : t.path.contains '\x00' = false)
    (read : load t.path = .tree tree) (chosen : maxDepth.value? = .ok depth)
    (changed : Settings.standard.change { maxDepth := depth } = .ok settings) :
    runTask load level maxDepth t = runTree level t.command settings tree := by
  replace chosen : maxDepth.value? = pure depth := chosen
  simp only [runTask, clean, read, chosen, pure_bind, changed, Bool.false_eq_true, if_false]

theorem runTask_outline {level : Level} {maxDepth : Setting Int} {t : Task} {o : Outcome}
    (ran : runTask load level maxDepth t = .ok o) (command : t.command = .outline)
    (done : o.exit = 0) :
    ∃ tree depth settings p, load t.path = .tree tree ∧ maxDepth.value? = .ok depth ∧
      Settings.standard.change { maxDepth := depth } = .ok settings ∧
      Program.ofJson settings tree = .ok p ∧ o.out = unlines p.root.outlineLines := by
  cases null : t.path.contains '\x00' with
  | true =>
    simp only [runTask, null] at ran
    cases ran
  | false =>
    cases read : load t.path with
    | unreadable reason =>
      simp only [runTask, null, read] at ran
      cases ran
      cases done
    | unparsable message =>
      simp only [runTask, null, read] at ran
      cases ran
      cases done
    | tree tree =>
      cases chosen : maxDepth.value? with
      | error fault =>
        simp only [runTask, null, read, chosen] at ran
        cases ran
      | ok depth =>
        cases changed : Settings.standard.change { maxDepth := depth } with
        | error refusal =>
          replace chosen : maxDepth.value? = pure depth := chosen
          simp only [runTask, null, read, chosen, pure_bind, changed] at ran
          cases ran
          cases done
        | ok settings =>
          rw [runTask_eq_runTree null read chosen changed, command] at ran
          obtain ⟨p, accepted, printed⟩ := runTree_outline ran done
          exact ⟨tree, depth, settings, p, rfl, rfl, changed, accepted, printed⟩

theorem Outlines.loads (outlines : Outlines load args out) :
    ∃ tree p, Loads load args tree p ∧ out = unlines p.root.outlineLines := by
  obtain ⟨⟨i, parsed, asked⟩, o, ran, done, rfl⟩ := outlines
  obtain ⟨t, task, command⟩ := Option.map_eq_some_iff.mp asked
  simp only [run, parsed, task] at ran
  cases chosen : i.level.value? with
  | error fault =>
    rw [chosen] at ran
    cases ran
  | ok level =>
    rw [chosen] at ran
    obtain ⟨tree, depth, settings, p, read, bound, changed, accepted, printed⟩ :=
      runTask_outline ran command done
    exact ⟨tree, p, ⟨i, t, depth, settings, parsed, task, read, bound, changed, accepted⟩, printed⟩

theorem Loads.depicts {tree : Json} {p : Program} (loads : Loads load args tree p) :
    Depicts (unlines p.root.outlineLines) tree p := by
  obtain ⟨_, _, _, settings, _, _, _, _, _, accepted⟩ := loads
  refine ⟨?_, Program.numbers_of_ofJson accepted, Program.counted_of_ofJson accepted⟩
  have distinct := (Program.wellFormed_of_ofJson accepted).distinct
  rw [p.root.outlineLines_eq_marks, Node.marks_kinds_eq_preorder distinct, splitOn_unlines]
  · simp [Outline.toList_line]
  · simp [Outline.newline_notMem_line]

theorem unlines_outlineLines_inj {m n : Node} :
    unlines m.outlineLines = unlines n.outlineLines ↔ m.kinds = n.kinds := by
  constructor
  · intro same
    have clean : ∀ n : Node, ∀ line ∈ n.outlineLines, '\n' ∉ line.toList := by
      intro n line shown
      rw [n.outlineLines_eq_marks] at shown
      obtain ⟨mark, _, rfl⟩ := List.mem_map.mp shown
      exact Outline.newline_notMem_line mark.1 mark.2
    have pieces := congrArg (fun s : String => s.toList.splitOn '\n') same
    simp only [splitOn_unlines (clean _)] at pieces
    have lines := List.append_cancel_right pieces
    rw [m.outlineLines_eq_marks, n.outlineLines_eq_marks, List.map_map, List.map_map] at lines
    refine KindTree.eq_of_marks (List.map_injective_iff.mpr ?_ lines)
    intro mark other alike
    obtain ⟨depth, kind⟩ := Outline.eq_of_line (String.toList_inj.mp alike)
    exact Prod.ext depth kind
  · intro same
    rw [m.outlineLines_eq_marks, n.outlineLines_eq_marks, same]

/-- What an outline command prints shows every node of the program that it reads, with its depth and
its kind. Two of them print the same exactly if their programs have the same tree of kinds. -/
theorem outline_faithful (first : Outlines load args out) (second : Outlines other arguments text) :
    ∃ tree p raw q, Loads load args tree p ∧ Loads other arguments raw q ∧
      Depicts out tree p ∧ Depicts text raw q ∧ (out = text ↔ p.root.kinds = q.root.kinds) := by
  obtain ⟨tree, p, loaded, rfl⟩ := first.loads
  obtain ⟨raw, q, read, rfl⟩ := second.loads
  exact ⟨tree, p, raw, q, loaded, read, loaded.depicts, read.depicts, unlines_outlineLines_inj⟩

theorem outlines_of_runTree {tree : Json}
    (printed : ∃ o, runTree .warning .outline .standard tree = .ok o ∧ o.exit = 0 ∧ o.out = out) :
    Outlines (fun _ => .tree tree) ["outline", "a.js"] out := by
  have parsed : Invocation.ofArguments ["outline", "a.js"] =
      .ok { task := some ⟨.outline, "a.js"⟩ } := by with_unfolding_all rfl
  have clean : "a.js".contains '\x00' = false := by simp
  refine ⟨⟨_, parsed, rfl⟩, ?_⟩
  simp only [run, parsed]
  change ∃ o, runTask (fun _ => .tree tree) .warning .unset ⟨.outline, "a.js"⟩ = .ok o ∧ _
  rwa [runTask_eq_runTree clean rfl rfl rfl]

open Raw in
/-- The tree of `x = [1, "a"];`. -/
def numberAndText : Json :=
  program [assignment "x" (array [literal (.int 1), literal (.text "a")])]

open Raw in
/-- The tree of `y = ["b", null];`. -/
def textAndNull : Json :=
  program [assignment "y" (array [literal (.text "b"), literal .null])]

theorem numberAndText_faithful :
    let out := unlines ["Program", "  ExpressionStatement", "    AssignmentExpression",
      "      Identifier", "      ArrayExpression", "        Literal", "        Literal"]
    Outlines (fun _ => .tree numberAndText) ["outline", "a.js"] out ∧
    Outlines (fun _ => .tree textAndNull) ["outline", "a.js"] out ∧
    ∃ tree p raw q, Loads (fun _ => .tree numberAndText) ["outline", "a.js"] tree p ∧
      Loads (fun _ => .tree textAndNull) ["outline", "a.js"] raw q ∧
      Depicts out tree p ∧ Depicts out raw q ∧ p.root.kinds = q.root.kinds := by
  intro out
  have first : Outlines (fun _ => .tree numberAndText) ["outline", "a.js"] out :=
    outlines_of_runTree (by decide +kernel)
  have second : Outlines (fun _ => .tree textAndNull) ["outline", "a.js"] out :=
    outlines_of_runTree (by decide +kernel)
  obtain ⟨tree, p, raw, q, loaded, read, left, right, same⟩ := outline_faithful first second
  exact ⟨first, second, tree, p, raw, q, loaded, read, left, right, same.mp rfl⟩

end CommandLine

end ScriptTypes
