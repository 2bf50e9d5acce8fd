import ScriptTypes.Proofs.Descriptor.Climbing

/-! What flows together in one place is merged into what its survivors tell, the members that no
other member beats. Since members cannot go on telling more forever, a survivor stands above each of
them, although it need not be comparable with all that it stands for. -/

namespace ScriptTypes

namespace Descriptor

variable {ds : List Descriptor} {d s : Descriptor}

theorem nodup_eraseDups (ds : List Descriptor) : ds.eraseDups.Nodup := by
  induction size : ds.length using Nat.strong_induction_on generalizing ds with
  | _ n ih =>
    cases ds with
    | nil => simp
    | cons d ds =>
      rw [List.eraseDups_cons]
      refine List.nodup_cons.mpr ⟨?_, ih _ ?_ _ rfl⟩
      · intro again
        simpa using List.mem_filter.mp (List.mem_eraseDups.mp again)
      · rw [← size, List.length_cons]
        exact Nat.lt_succ_of_le (List.length_filter_le _ _)

theorem optionSet_congr {as bs : List Descriptor} (same : ∀ d, d ∈ as ↔ d ∈ bs) :
    optionSet as = optionSet bs :=
  (ascending_optionSet as).eq_of_mem_iff (ascending_optionSet bs) (by simpa using same)

theorem either_congr {as bs : List Descriptor} (same : ∀ d, d ∈ as ↔ d ∈ bs) :
    either as = either bs := by
  have opened : optionSet (as.flatMap alternatives) = optionSet (bs.flatMap alternatives) := by
    apply optionSet_congr
    simp [List.mem_flatMap, same]
  unfold either
  rw [opened]

theorem one_lt_length_of_ne {x y : Descriptor} (first : x ∈ ds) (second : y ∈ ds) (apart : x ≠ y) :
    1 < ds.length := by
  match ds with
  | [] => cases first
  | [z] => exact absurd ((List.mem_singleton.mp first).trans (List.mem_singleton.mp second).symm) apart
  | _ :: _ :: _ => simp

end Descriptor

namespace Candidates

theorem resolve_congr {as bs : List Descriptor} (left : as.Nodup) (right : bs.Nodup)
    (same : ∀ d, d ∈ as ↔ d ∈ bs) : resolve as = resolve bs := by
  have perm : as.Perm bs := (List.perm_ext_iff_of_nodup left right).mpr same
  match as, bs with
  | [], bs => rw [← perm.nil_eq]
  | [a], bs => rw [List.perm_singleton.mp perm.symm]
  | _ :: _ :: _, [] => cases perm.eq_nil
  | _ :: _ :: _, [b] => cases List.perm_singleton.mp perm
  | _ :: _ :: _, _ :: _ :: _ => exact Descriptor.either_congr same

theorem resolve_eq_either {ds : List Descriptor} {a b : Descriptor} (first : a ∈ ds)
    (second : b ∈ ds) (apart : a ≠ b) : resolve ds = .either ds := by
  match ds, Descriptor.one_lt_length_of_ne first second apart with
  | _ :: _ :: _, _ => rfl

end Candidates

namespace Descriptor

variable {ds : List Descriptor} {d s : Descriptor}

/-- A member that no other member beats. -/
def Survives (ds : List Descriptor) (s : Descriptor) : Prop := s ∈ ds ∧ ∀ e ∈ ds, compare s e ≠ .less

instance (ds : List Descriptor) (s : Descriptor) : Decidable (Survives ds s) :=
  inferInstanceAs (Decidable (_ ∧ _))

theorem survives_congr {as bs : List Descriptor} (same : ∀ d, d ∈ as ↔ d ∈ bs) :
    Survives as s ↔ Survives bs s := by
  simp [Survives, same]

theorem mem_survivors : s ∈ survivors ds ↔ Survives ds s := by
  simp [survivors, Survives]

theorem mem_survivors_eraseDups : s ∈ survivors ds.eraseDups ↔ Survives ds s :=
  mem_survivors.trans (survives_congr fun _ => List.mem_eraseDups)

theorem nodup_survivors_eraseDups (ds : List Descriptor) : (survivors ds.eraseDups).Nodup :=
  (nodup_eraseDups ds).filter _

/-- Merging treats the survivors as a table treats the candidates of a name. -/
theorem unify_eq_resolve (ds : List Descriptor) :
    unify ds = Candidates.resolve (survivors ds.eraseDups) := by
  unfold unify Candidates.resolve
  rfl

theorem unify_congr {as bs : List Descriptor} (same : ∀ d, d ∈ as ↔ d ∈ bs) :
    unify as = unify bs := by
  rw [unify_eq_resolve, unify_eq_resolve]
  refine Candidates.resolve_congr (nodup_survivors_eraseDups as) (nodup_survivors_eraseDups bs) ?_
  intro d
  rw [mem_survivors_eraseDups, mem_survivors_eraseDups, survives_congr same]

/-- As `GrowsTo`, by steps to members of a list. -/
def GrowsWithin (ds : List Descriptor) : Descriptor → Descriptor → Prop :=
  Relation.ReflTransGen fun a b => b ∈ ds ∧ b.Beats a

theorem exists_survivor (member : d ∈ ds) : ∃ s, Survives ds s ∧ GrowsWithin ds d s := by
  induction d using (BeatsBelow.wellFounded (depthAll ds + 1)).induction with
  | _ d ih =>
    by_cases unbeaten : ∀ e ∈ ds, compare d e ≠ .less
    · exact ⟨d, ⟨member, unbeaten⟩, .refl⟩
    · obtain ⟨e, listed, less⟩ : ∃ e ∈ ds, compare d e = .less := by simpa using unbeaten
      have beats : e.Beats d := compare_less_iff.mp less
      have shallow : e.depth < depthAll ds + 1 := Nat.lt_succ_of_le (depth_le_depthAll listed)
      obtain ⟨s, survives, grows⟩ := ih e ⟨shallow, beats⟩ listed
      exact ⟨s, survives, .head ⟨listed, beats⟩ grows⟩

/-- Beside anything else `object` does not survive. -/
theorem Survives.ne_object (survives : Survives ds s) (member : d ∈ ds) (proper : d ≠ object) :
    s ≠ object := by
  rintro rfl
  exact survives.2 d member (compare_less_iff.mpr (compare_of_refines (.object proper)).1)

theorem Survives.ne_object_of_several {a b : Descriptor} (left : Survives ds a)
    (right : Survives ds b) (apart : a ≠ b) (survives : Survives ds s) : s ≠ object := by
  by_cases bottom : a = object
  · exact survives.ne_object right.1 fun same => apart (bottom.trans same.symm)
  · exact survives.ne_object left.1 bottom

/-- If a union, then one of a set of at least two options of which none is `object` or a union. -/
def Tidy (d : Descriptor) : Prop :=
  ∀ options, d = union options → 2 ≤ options.length ∧ Ascending options ∧
    ∀ o ∈ options, o ≠ object ∧ o.isUnion = false

namespace Tidy

theorem alternatives_ne_object (tidy : Tidy d) (proper : d ≠ object) :
    ∀ o ∈ d.alternatives, o ≠ object := by
  intro o member
  cases d with
  | union options => exact ((tidy options rfl).2.2 o member).1
  | _ => exact List.mem_singleton.mp member ▸ proper

theorem exists_options (tidy : Tidy d) (shape : d.isUnion = true) :
    ∃ x ∈ d.alternatives, ∃ y ∈ d.alternatives, x ≠ y := by
  cases d with
  | union options =>
    obtain ⟨several, ascending, _⟩ := tidy options rfl
    match options, several, ascending.nodup with
    | x :: y :: rest, _, distinct =>
      have apart : x ≠ y := fun same => (List.nodup_cons.mp distinct).1 (by simp [same])
      exact ⟨x, by simp [alternatives], y, by simp [alternatives], apart⟩
  | _ => cases shape

end Tidy

theorem mem_alternatives_self (plain : d.isUnion = false) : d ∈ d.alternatives := by
  cases d with
  | union options => cases plain
  | _ => exact List.mem_singleton.mpr rfl

theorem exists_alternatives {a b : Descriptor} (tidy : ∀ d ∈ ds, Tidy d) (first : a ∈ ds)
    (second : b ∈ ds) (apart : a ≠ b) :
    ∃ x ∈ ds.flatMap alternatives, ∃ y ∈ ds.flatMap alternatives, x ≠ y := by
  have among : ∀ {d x}, d ∈ ds → x ∈ d.alternatives → x ∈ ds.flatMap alternatives :=
    fun listed option => List.mem_flatMap.mpr ⟨_, listed, option⟩
  cases shapeA : a.isUnion with
  | true =>
    obtain ⟨x, left, y, right, distinct⟩ := (tidy a first).exists_options shapeA
    exact ⟨x, among first left, y, among first right, distinct⟩
  | false =>
    cases shapeB : b.isUnion with
    | true =>
      obtain ⟨x, left, y, right, distinct⟩ := (tidy b second).exists_options shapeB
      exact ⟨x, among second left, y, among second right, distinct⟩
    | false =>
      exact ⟨a, among first (mem_alternatives_self shapeA),
        b, among second (mem_alternatives_self shapeB), apart⟩

/-- Where `object` is not among them, either of several descriptors is the union of all their
options. -/
theorem either_eq_union {a b : Descriptor} (tidy : ∀ d ∈ ds, Tidy d)
    (proper : ∀ d ∈ ds, d ≠ object) (first : a ∈ ds) (second : b ∈ ds) (apart : a ≠ b) :
    either ds = union (optionSet (ds.flatMap alternatives)) := by
  have several : 1 < (optionSet (ds.flatMap alternatives)).length := by
    obtain ⟨x, left, y, right, distinct⟩ := exists_alternatives tidy first second apart
    exact one_lt_length_of_ne (mem_optionSet.mpr left) (mem_optionSet.mpr right) distinct
  have kept : (optionSet (ds.flatMap alternatives)).filter (· ≠ object) =
      optionSet (ds.flatMap alternatives) := by
    refine List.filter_eq_self.mpr fun o member => ?_
    obtain ⟨d, listed, option⟩ := List.mem_flatMap.mp (mem_optionSet.mp member)
    simpa using (tidy d listed).alternatives_ne_object (proper d listed) o option
  unfold either
  simp only [several, if_true, kept]
  match optionSet (ds.flatMap alternatives), several with
  | _ :: _ :: _, _ => rfl

theorem unify_of_only (only : ∀ d, Survives ds d ↔ d = s) : unify ds = s := by
  rw [unify_eq_resolve]
  exact Candidates.resolve_congr (nodup_survivors_eraseDups ds) (List.nodup_singleton s) fun d => by
    rw [mem_survivors_eraseDups, only, List.mem_singleton]

/-- Several survivors leave the union of all their options. -/
theorem unify_of_several {a b : Descriptor} (tidy : ∀ d ∈ ds, Tidy d) (left : Survives ds a)
    (right : Survives ds b) (apart : a ≠ b) :
    ∃ options, unify ds = union options ∧ Ascending options ∧
      ∀ o, o ∈ options ↔ ∃ s, Survives ds s ∧ o ∈ s.alternatives := by
  let kept := survivors ds.eraseDups
  have among : ∀ s, s ∈ kept ↔ Survives ds s := fun s => mem_survivors_eraseDups
  refine ⟨optionSet (kept.flatMap alternatives), ?_, ascending_optionSet _, ?_⟩
  · have first := (among a).mpr left
    have second := (among b).mpr right
    rw [unify_eq_resolve, Candidates.resolve_eq_either first second apart]
    refine either_eq_union (fun s member => tidy s ((among s).mp member).1) ?_ first second apart
    exact fun s member => left.ne_object_of_several right apart ((among s).mp member)
  · intro o
    rw [mem_optionSet, List.mem_flatMap]
    exact exists_congr fun s => and_congr_left fun _ => among s

theorem unify_eq_object_iff (tidy : ∀ d ∈ ds, Tidy d) :
    unify ds = object ↔ ∀ d ∈ ds, d = object := by
  constructor
  · intro unknown d member
    by_contra proper
    obtain ⟨s, survives, _⟩ := exists_survivor member
    by_cases other : ∃ e, Survives ds e ∧ e ≠ s
    · obtain ⟨e, also, apart⟩ := other
      obtain ⟨options, union, _⟩ := unify_of_several tidy also survives apart
      cases union.symm.trans unknown
    · have only : ∀ e, Survives ds e ↔ e = s := by
        intro e
        refine ⟨fun also => ?_, fun same => same ▸ survives⟩
        by_contra apart
        exact other ⟨e, also, apart⟩
      exact survives.ne_object member proper ((unify_of_only only).symm.trans unknown)
  · intro all
    cases ds with
    | nil => rfl
    | cons d ds =>
      have first : d = object := all d List.mem_cons_self
      refine unify_of_only fun e => ⟨fun survives => all e survives.1, ?_⟩
      rintro rfl
      refine ⟨first ▸ List.mem_cons_self, fun e member => ?_⟩
      rw [all e member, compare_self]
      simp

/-- Merging depends on the set of members alone. Each member is a survivor, or one is reached from it
by steps to members that tell more. The result is `object` only where nothing else is merged, a
single survivor stays as it is, and several become the union of their options. Nothing is asked of
unions inside of functions, collections and options. -/
theorem unify_loses_nothing (tidy : ∀ d ∈ ds, Tidy d) :
    (∀ es, (∀ d, d ∈ es ↔ d ∈ ds) → unify es = unify ds) ∧
    (∀ d ∈ ds, ∃ s, Survives ds s ∧ GrowsWithin ds d s) ∧
    (unify ds = object ↔ ∀ d ∈ ds, d = object) ∧
    (∀ s, (∀ d, Survives ds d ↔ d = s) → unify ds = s) ∧
    ∀ a b, Survives ds a → Survives ds b → a ≠ b →
      ∃ options, unify ds = union options ∧ Ascending options ∧
        ∀ o, o ∈ options ↔ ∃ s, Survives ds s ∧ o ∈ s.alternatives :=
  ⟨fun _ same => unify_congr same, fun _ member => exists_survivor member,
    unify_eq_object_iff tidy, fun _ only => unify_of_only only,
    fun _ _ left right apart => unify_of_several tidy left right apart⟩

theorem Tidy.unionOf {a b : Descriptor} (apart : a ≠ b) (left : a ≠ object ∧ a.isUnion = false)
    (right : b ≠ object ∧ b.isUnion = false) : Tidy (Descriptor.unionOf [a, b]) := by
  rintro options ⟨⟩
  refine ⟨one_lt_length_of_ne (x := a) (y := b) (by simp) (by simp) apart, ascending_optionSet _, ?_⟩
  intro o member
  rcases List.mem_pair.mp (mem_optionSet.mp member) with rfl | rfl
  · exact left
  · exact right

/-- A union with a bare array, that array, an array that refines it, and a union of other things. -/
def mingled : List Descriptor :=
  [unionOf [array, int], object, arrayOf int, array, unionOf [bool, string]]

theorem mingled_unified :
    (∀ d ∈ mingled, Tidy d) ∧ unify mingled.reverse = unify mingled ∧
    (∃ s, Survives mingled s ∧ GrowsWithin mingled (unionOf [array, int]) s ∧
      compare s (unionOf [array, int]) = .incomparable) ∧
    ∃ options, unify mingled = union options ∧ arrayOf int ∈ options ∧ bool ∈ options ∧
      array ∉ options := by
  have tidy : ∀ d ∈ mingled, Tidy d := by
    intro d member
    simp only [mingled, List.mem_cons, List.not_mem_nil, or_false] at member
    rcases member with rfl | rfl | rfl | rfl | rfl
    · exact .unionOf (by decide) (by decide) (by decide)
    · rintro _ ⟨⟩
    · rintro _ ⟨⟩
    · rintro _ ⟨⟩
    · exact .unionOf (by decide) (by decide) (by decide)
  obtain ⟨asSet, reached, _, _, united⟩ := unify_loses_nothing tidy
  have apart : ∀ s ∈ mingled, Survives mingled s →
      compare s (unionOf [array, int]) = .incomparable := by decide +kernel
  obtain ⟨s, survives, grows⟩ := reached (unionOf [array, int]) (by simp [mingled])
  obtain ⟨options, merged, _, members⟩ :=
    united (arrayOf int) (unionOf [bool, string]) (by decide +kernel) (by decide +kernel) (by decide)
  refine ⟨tidy, asSet _ (by simp), ⟨s, survives, grows, apart s survives.1 survives⟩,
    options, merged, ?_, ?_, ?_⟩
  · exact (members _).mpr ⟨arrayOf int, by decide +kernel, by decide⟩
  · exact (members _).mpr ⟨unionOf [bool, string], by decide +kernel, by decide +kernel⟩
  · intro listed
    obtain ⟨s, survives, option⟩ := (members _).mp listed
    have lost : ∀ s ∈ mingled, Survives mingled s → array ∉ s.alternatives := by decide +kernel
    exact lost s survives.1 survives option

end Descriptor

end ScriptTypes
