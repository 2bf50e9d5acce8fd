import ScriptTypes.Proofs.Descriptor.Merging

/-! A descriptor that is no union prints as a word and what it holds in brackets, a union as the
texts of its options with bars between them. Inside a longer text the end of such a text can be
seen: a word ends at the first mark, an option at a bar or a closing bracket outside of its own
brackets, and a union at a closing bracket. So canonical descriptors with the same text are the
same. -/

namespace ScriptTypes

/-- Nothing follows, or one of these marks does. -/
def Follows (marks rest : List Char) : Prop := ∀ c ∈ rest.head?, c ∈ marks

namespace Follows

variable {marks more rest : List Char} {c : Char}

theorem nil : Follows marks [] := by simp [Follows]

theorem cons (mark : c ∈ marks) : Follows marks (c :: rest) := by simpa [Follows] using mark

theorem head (follows : Follows marks (c :: rest)) : c ∈ marks := follows c rfl

theorem mono (follows : Follows marks rest) (fewer : marks ⊆ more) : Follows more rest :=
  fun c first => fewer (follows c first)

end Follows

/-- A text without marks ends where the first mark stands. -/
theorem cancel_word {marks v w x y : List Char} (left : ∀ c ∈ v, c ∉ marks)
    (right : ∀ c ∈ w, c ∉ marks) (afterLeft : Follows marks x) (afterRight : Follows marks y)
    (same : v ++ x = w ++ y) : v = w ∧ x = y := by
  induction v generalizing w with
  | nil =>
    cases w with
    | nil => exact ⟨rfl, same⟩
    | cons c w =>
      rw [List.nil_append] at same
      exact absurd (same ▸ afterLeft).head (right c List.mem_cons_self)
  | cons c v ih =>
    cases w with
    | nil =>
      rw [List.nil_append] at same
      exact absurd (same ▸ afterRight).head (left c List.mem_cons_self)
    | cons d w =>
      obtain ⟨rfl, tails⟩ := List.cons.inj same
      obtain ⟨rfl, rests⟩ := ih (fun c member => left c (List.mem_cons_of_mem _ member))
        (fun c member => right c (List.mem_cons_of_mem _ member)) tails
      exact ⟨rfl, rests⟩

namespace Descriptor

variable {a b d e : Descriptor}

def chars (d : Descriptor) : List Char := d.text.toList

/-- The word that the text starts with. -/
def stem : Descriptor → String
  | primitive name => name
  | anyFunction => "function"
  | function result => if result = void then "function" else "func"
  | anyCollection kind => kind
  | collection kind _ => kind
  | union _ => ""

/-- What stands in brackets after the word. -/
def filling : Descriptor → Option Descriptor
  | function result => if result = void then none else some result
  | collection _ element => some element
  | _ => none

def bracketed : Option Descriptor → List Char
  | none => []
  | some d => '<' :: (d.chars ++ ['>'])

theorem chars_eq (plain : d.isUnion = false) :
    d.chars = d.stem.toList ++ bracketed d.filling := by
  cases d with
  | union options => cases plain
  | function result =>
    by_cases silent : result = void
    · simp [chars, text, stem, filling, bracketed, silent]
    · simp [chars, text, stem, filling, bracketed, silent, String.toList_append]
  | collection kind element =>
    simp [chars, text, stem, filling, bracketed, String.toList_append]
  | _ => simp [chars, text, stem, filling, bracketed]

theorem eq_of_mem_filling {result : Descriptor} (held : e ∈ (function result).filling) :
    e = result := by
  simp only [filling] at held
  split at held
  · cases held
  · exact (Option.some.inj held).symm

theorem Canonical.filling (canonical : Canonical d) : ∀ e ∈ d.filling, Canonical e := by
  intro e held
  cases canonical with
  | primitive => cases held
  | function inner => exact eq_of_mem_filling held ▸ inner
  | array inner => exact Option.some.inj held ▸ inner
  | union => cases held

theorem Canonical.stem_unmarked (canonical : Canonical d) :
    ∀ c ∈ d.stem.toList, c ∉ ['<', '>', '|'] := by
  have unmarked : ("function" :: "func" :: knownNames).all fun word =>
      word.toList.all fun c => c ∉ ['<', '>', '|'] := by decide
  simp only [List.all_eq_true, decide_eq_true_eq] at unmarked
  cases canonical with
  | @primitive name known => exact unmarked name (by simp [known])
  | @function result _ =>
    refine unmarked _ ?_
    by_cases silent : result = void
    · simp [stem, silent]
    · simp [stem, silent]
  | array _ => exact unmarked "array" (by simp [knownNames])
  | union => simp [stem]

def assembled (word : String) : Option Descriptor → Descriptor
  | none => if word = "function" then function void else primitive word
  | some d => if word = "func" then function d else collection word d

theorem Canonical.assembled_eq (canonical : Canonical d) (plain : d.isUnion = false) :
    assembled d.stem d.filling = d := by
  cases canonical with
  | @primitive name known =>
    have apart : name ≠ "function" := by
      rintro rfl
      revert known
      decide
    simp [assembled, stem, Descriptor.filling, apart]
  | @function result _ =>
    by_cases silent : result = void
    · simp [assembled, stem, Descriptor.filling, silent]
    · simp [assembled, stem, Descriptor.filling, silent]
  | array _ => simp [assembled, stem, Descriptor.filling]
  | union => cases plain

/-- The text of the descriptor can be told from what follows it, up to one of these marks, and from
all texts of descriptors with a property. -/
def Delimited (marks : List Char) (among : Descriptor → Prop) (d : Descriptor) : Prop :=
  ∀ e, among e → ∀ x y, Follows marks x → Follows marks y →
    d.chars ++ x = e.chars ++ y → d = e ∧ x = y

def Single (d : Descriptor) : Prop := Canonical d ∧ d.isUnion = false

theorem follows_bracketed {x : List Char} (follows : Follows ['>', '|'] x)
    (held : Option Descriptor) : Follows ['<', '>', '|'] (bracketed held ++ x) := by
  cases held with
  | none => exact follows.mono (by simp)
  | some d => exact .cons (by simp)

/-- Brackets are closed where what stands in them ends. -/
theorem cancel_bracketed {held held' : Option Descriptor} {x y : List Char}
    (delimited : ∀ d ∈ held, Delimited ['>'] Canonical d) (canonical : ∀ d ∈ held', Canonical d)
    (afterLeft : Follows ['>', '|'] x) (afterRight : Follows ['>', '|'] y)
    (same : bracketed held ++ x = bracketed held' ++ y) : held = held' ∧ x = y := by
  cases held with
  | none =>
    cases held' with
    | none => exact ⟨rfl, same⟩
    | some e =>
      have opens : x = '<' :: (e.chars ++ ['>'] ++ y) := same
      exact absurd (opens ▸ afterLeft).head (by decide)
  | some d =>
    cases held' with
    | none =>
      have opens : y = '<' :: (d.chars ++ ['>'] ++ x) := same.symm
      exact absurd (opens ▸ afterRight).head (by decide)
    | some e =>
      have insides : d.chars ++ '>' :: x = e.chars ++ '>' :: y := by simpa [bracketed] using same
      obtain ⟨rfl, tails⟩ := delimited d rfl e (canonical e rfl) _ _ (.cons (by simp))
        (.cons (by simp)) insides
      exact ⟨rfl, (List.cons.inj tails).2⟩

/-- A bar or a closing bracket ends a descriptor that is no union, if a closing bracket ends what it
holds. -/
theorem Single.delimited (single : Single d)
    (inner : ∀ e ∈ d.filling, Delimited ['>'] Canonical e) : Delimited ['>', '|'] Single d := by
  rintro e ⟨canonical, plain⟩ x y afterLeft afterRight same
  rw [chars_eq single.2, chars_eq plain, List.append_assoc, List.append_assoc] at same
  obtain ⟨words, rests⟩ := cancel_word single.1.stem_unmarked canonical.stem_unmarked
    (follows_bracketed afterLeft d.filling) (follows_bracketed afterRight e.filling) same
  obtain ⟨held, ends⟩ := cancel_bracketed inner canonical.filling afterLeft afterRight rests
  have whole : d = e := by
    rw [← single.1.assembled_eq single.2, ← canonical.assembled_eq plain,
      String.toList_inj.mp words, held]
  exact ⟨whole, ends⟩

def trail (ds : List Descriptor) : List Char := ds.flatMap fun d => '|' :: d.chars

theorem intercalate_eq_trail (d : Descriptor) (ds : List Descriptor) :
    ['|'].intercalate ((d :: ds).map chars) = d.chars ++ trail ds := by
  induction ds generalizing d with
  | nil => simp [trail]
  | cons e ds ih =>
    have rest := ih e
    simp only [List.map_cons] at rest ⊢
    rw [List.intercalate_cons_cons, rest]
    simp [trail]

theorem follows_trail {x : List Char} (follows : Follows ['>'] x) (ds : List Descriptor) :
    Follows ['>', '|'] (trail ds ++ x) := by
  cases ds with
  | nil => exact follows.mono (by simp)
  | cons d ds => exact .cons (by simp)

theorem cancel_trail {ds es : List Descriptor} {x y : List Char}
    (delimited : ∀ d ∈ ds, Delimited ['>', '|'] Single d) (singles : ∀ e ∈ es, Single e)
    (afterLeft : Follows ['>'] x) (afterRight : Follows ['>'] y)
    (same : trail ds ++ x = trail es ++ y) : ds = es ∧ x = y := by
  induction ds generalizing es with
  | nil =>
    cases es with
    | nil => exact ⟨rfl, same⟩
    | cons e es =>
      have bar : x = '|' :: (e.chars ++ trail es ++ y) := by simpa [trail] using same
      exact absurd (bar ▸ afterLeft).head (by decide)
  | cons d ds ih =>
    cases es with
    | nil =>
      have bar : y = '|' :: (d.chars ++ trail ds ++ x) := by simpa [trail] using same.symm
      exact absurd (bar ▸ afterRight).head (by decide)
    | cons e es =>
      have tails : d.chars ++ (trail ds ++ x) = e.chars ++ (trail es ++ y) := by
        simpa [trail] using same
      obtain ⟨rfl, rests⟩ := delimited d List.mem_cons_self e (singles e List.mem_cons_self) _ _
        (follows_trail afterLeft ds) (follows_trail afterRight es) tails
      obtain ⟨rfl, ends⟩ := ih (fun d member => delimited d (List.mem_cons_of_mem _ member))
        (fun e member => singles e (List.mem_cons_of_mem _ member)) rests
      exact ⟨rfl, ends⟩

theorem texts_eq_map (ds : List Descriptor) : texts ds = ds.map text := by
  induction ds with
  | nil => rfl
  | cons d ds ih => rw [texts, ih, List.map_cons]

/-- Every text lists the alternatives in some order. -/
theorem exists_listing (canonical : Canonical d) :
    ∃ first rest, (first :: rest).Perm d.alternatives ∧ d.chars = first.chars ++ trail rest := by
  cases shape : d.isUnion with
  | false =>
    refine ⟨d, [], ?_, by simp [trail]⟩
    cases d with
    | union options => cases shape
    | _ => exact .refl _
  | true =>
    cases canonical with
    | @union options several _ _ _ =>
      let sorted := options.mergeSort fun a b => decide (a.text ≤ b.text)
      have perm : sorted.Perm options := List.mergeSort_perm _ _
      have listed : (union options).chars = ['|'].intercalate (sorted.map chars) := by
        have sorting : sorted.map text = (options.map text).mergeSort fun s t => decide (s ≤ t) :=
          List.map_mergeSort fun _ _ _ _ => rfl
        rw [chars, text, texts_eq_map, ← sorting, String.toList_intercalate, List.map_map]
        rfl
      cases order : sorted with
      | nil =>
        rw [order] at perm
        rw [← perm.nil_eq] at several
        simp at several
      | cons first rest =>
        rw [order, intercalate_eq_trail] at listed
        exact ⟨first, rest, order ▸ perm, listed⟩
    | _ => cases shape

theorem Canonical.ascending_alternatives (canonical : Canonical d) : Ascending d.alternatives := by
  cases canonical with
  | union _ ascending _ _ => exact ascending
  | _ => exact List.pairwise_singleton _ _

theorem Canonical.ofSet_alternatives (canonical : Canonical d) :
    Descriptor.ofSet d.alternatives = d := by
  cases canonical with
  | @union options several _ _ _ =>
    match options, several with
    | _ :: _ :: _, _ => rfl
  | _ => rfl

theorem Canonical.delimited_of_alternatives (canonical : Canonical d)
    (delimited : ∀ o ∈ d.alternatives, Delimited ['>', '|'] Single o) :
    Delimited ['>'] Canonical d := by
  intro e other x y afterLeft afterRight same
  obtain ⟨first, rest, permLeft, left⟩ := exists_listing canonical
  obtain ⟨first', rest', permRight, right⟩ := exists_listing other
  have singles : ∀ o ∈ first' :: rest', Single o :=
    fun o member => other.alternatives (permRight.mem_iff.mp member)
  have sound : ∀ o ∈ first :: rest, Delimited ['>', '|'] Single o :=
    fun o member => delimited o (permLeft.mem_iff.mp member)
  rw [left, right, List.append_assoc, List.append_assoc] at same
  obtain ⟨rfl, trails⟩ := sound first List.mem_cons_self first' (singles _ List.mem_cons_self) _ _
    (follows_trail afterLeft rest) (follows_trail afterRight rest') same
  obtain ⟨rfl, ends⟩ := cancel_trail (fun o member => sound o (List.mem_cons_of_mem _ member))
    (fun o member => singles o (List.mem_cons_of_mem _ member)) afterLeft afterRight trails
  have sets : d.alternatives = e.alternatives :=
    canonical.ascending_alternatives.eq_of_mem_iff other.ascending_alternatives
      fun o => (permLeft.symm.trans permRight).mem_iff
  exact ⟨by rw [← canonical.ofSet_alternatives, sets, other.ofSet_alternatives], ends⟩

/-- By induction on the descriptor: what stands in brackets is delimited, hence the whole. -/
theorem Canonical.delimited_alternatives (canonical : Canonical d) :
    ∀ o ∈ d.alternatives, Delimited ['>', '|'] Single o := by
  induction canonical with
  | @primitive name known =>
    intro o member
    rw [List.mem_singleton.mp member]
    exact Single.delimited ⟨.primitive known, rfl⟩ (by simp [Descriptor.filling])
  | @function result inner ih =>
    intro o member
    rw [List.mem_singleton.mp member]
    refine Single.delimited ⟨.function inner, rfl⟩ fun e held => ?_
    exact eq_of_mem_filling held ▸ inner.delimited_of_alternatives ih
  | @array element inner ih =>
    intro o member
    rw [List.mem_singleton.mp member]
    refine Single.delimited ⟨.array inner, rfl⟩ fun e held => ?_
    exact Option.some.inj held ▸ inner.delimited_of_alternatives ih
  | union _ _ plain _ ih =>
    intro o member
    exact ih o member o (mem_alternatives_self (plain o member).2)

/-- Canonical descriptors with the same text are the same. -/
theorem eq_of_text_eq (left : Canonical a) (right : Canonical b) (same : a.text = b.text) :
    a = b := by
  have whole : a.chars ++ [] = b.chars ++ [] := by rw [chars, chars, same]
  exact (left.delimited_of_alternatives left.delimited_alternatives b right [] [] .nil .nil
    whole).1

theorem returning_eq_of_text_eq :
    let one := function (either [function void, arrayOf (either [string, arrayOf bool]), int])
    let other := function (either [int, arrayOf (either [arrayOf bool, string]), function void])
    Canonical one ∧ Canonical other ∧ one.text = "func<array<array<bool>|string>|function|int>" ∧
      other.text = "func<array<array<bool>|string>|function|int>" ∧ one = other := by
  intro one other
  have pair : ∀ {a b : Descriptor}, Canonical a → Canonical b → Canonical (either [a, b]) :=
    fun left right => .either (by simp [left, right])
  have three : ∀ {a b c : Descriptor}, Canonical a → Canonical b → Canonical c →
      Canonical (either [a, b, c]) := fun first second third => .either (by simp [first, second, third])
  have canonicalOne : Canonical one :=
    .function (three (.function .known) (.array (pair .known (.array .known))) .known)
  have canonicalOther : Canonical other :=
    .function (three .known (.array (pair (.array .known) .known)) (.function .known))
  have shown : ∀ d, d = function (union [int, function void, arrayOf (union [string, arrayOf bool])]) →
      d.text = "func<array<array<bool>|string>|function|int>" := by
    rintro d rfl
    simp [text, texts, List.mergeSort]
  have shownOne := shown one (by decide +kernel)
  have shownOther := shown other (by decide +kernel)
  exact ⟨canonicalOne, canonicalOther, shownOne, shownOther,
    eq_of_text_eq canonicalOne canonicalOther (shownOne.trans shownOther.symm)⟩

end Descriptor

end ScriptTypes
