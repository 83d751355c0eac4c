import SqlCompose.Config.Expand
import SqlCompose.Proofs.Templates

/-! References to variables, told from the text alone. A text is a row of references with texts in
front of them, up to its end or to the first reference that cannot be replaced. What is written for
a reference is its value as it stands, and the first fault decides how an expansion fails. -/

namespace SqlCompose.Expand

variable {lookup : Text → Option Text} {s t key rest after : Text} {e : Fault}

def opening : Text :=
  ['$', '\x7b']

def IsPlain (t : Text) : Prop :=
  ¬ opening <:+: t

theorem isPlain_nil : IsPlain [] := by
  simp [IsPlain, opening]

theorem isPlain_cons {c : Char} :
    IsPlain (c :: t) ↔ ¬ (c = '$' ∧ t.head? = some '\x7b') ∧ IsPlain t := by
  have here : opening <+: c :: t ↔ c = '$' ∧ t.head? = some '\x7b' := by
    rw [opening, List.cons_prefix_cons, eq_comm]
    cases t with
    | nil => simp
    | cons d t => simp [List.cons_prefix_cons, eq_comm]
  rw [IsPlain, IsPlain, List.infix_cons_iff, here, not_or]

theorem isPlain_or_exists (t : Text) :
    IsPlain t ∨ ∃ before rest, IsPlain before ∧ t = before ++ (opening ++ rest) := by
  induction t with
  | nil => exact .inl isPlain_nil
  | cons c t ih =>
    by_cases here : c = '$' ∧ t.head? = some '\x7b'
    · obtain ⟨rfl, head⟩ := here
      obtain ⟨rest, rfl⟩ := List.head?_eq_some_iff.mp head
      exact .inr ⟨[], rest, isPlain_nil, rfl⟩
    · rcases ih with plain | ⟨before, rest, plain, rfl⟩
      · exact .inl (isPlain_cons.mpr ⟨here, plain⟩)
      · refine .inr ⟨c :: before, rest, isPlain_cons.mpr ⟨fun both => here ?_, plain⟩, rfl⟩
        exact ⟨both.1, by rw [List.head?_append, both.2]; rfl⟩

theorem pieces_append (plain : IsPlain t) (apart : rest.head? ≠ some '\x7b') :
    pieces (t ++ rest) = t.map Piece.char ++ pieces rest := by
  induction t with
  | nil => rfl
  | cons c t ih =>
    obtain ⟨first, plain⟩ := isPlain_cons.mp plain
    have none : ¬ (c = '$' ∧ (t ++ rest).head? = some '\x7b') := by
      rintro ⟨dollar, brace⟩
      cases t with
      | nil => exact apart brace
      | cons d t => exact first ⟨dollar, brace⟩
    rw [List.cons_append, pieces, if_neg none, ih plain, List.map_cons, List.cons_append]

theorem pieces_reference (inside : '\x7d' ∉ key) :
    pieces (opening ++ (key ++ '\x7d' :: after)) = .reference key :: pieces after := by
  have closing := Text.takeWhile_dropWhile_ne inside ('\x7d' :: after) (by simp)
  rw [opening, List.cons_append, List.singleton_append, pieces, if_pos ⟨rfl, rfl⟩, List.tail_cons]
  split
  · next none =>
    rw [closing.2] at none
    cases none
  · next found =>
    rw [closing.2] at found
    obtain ⟨-, rfl⟩ := List.cons.inj found
    rw [closing.1]

theorem pieces_unclosed (unclosed : '\x7d' ∉ key) : pieces (opening ++ key) = [.unclosed key] := by
  have closing := Text.takeWhile_dropWhile_ne unclosed [] (by simp)
  rw [List.append_nil] at closing
  rw [opening, List.cons_append, List.singleton_append, pieces, if_pos ⟨rfl, rfl⟩, List.tail_cons]
  split
  · rw [closing.1]
  · next found =>
    rw [closing.2] at found
    cases found

theorem expandAll_chars (t : Text) (ps : List Piece) :
    expandAll lookup (t.map Piece.char ++ ps) = (expandAll lookup ps).map (t ++ ·) := by
  induction t with
  | nil => cases h : expandAll lookup ps <;> simp [h, Except.map]
  | cons c t ih =>
    rw [List.map_cons, List.cons_append, expandAll, ih]
    cases expandAll lookup ps <;> rfl

theorem expand_append (plain : IsPlain t) (apart : rest.head? ≠ some '\x7b') :
    expand lookup (t ++ rest) = (expand lookup rest).map (t ++ ·) := by
  rw [expand, pieces_append plain apart, expandAll_chars, expand]

theorem expand_of_isPlain (plain : IsPlain t) : expand lookup t = .ok t := by
  have nothing : expand lookup [] = .ok [] := by
    rw [expand, pieces.eq_def]
    rfl
  have alone : expand lookup (t ++ []) = _ := expand_append plain (by simp)
  rwa [List.append_nil, nothing, Except.map, List.append_nil] at alone

/-- A text in front of a reference, its name, and the value of the variable. -/
structure Use where
  before : Text
  key : Text
  value : Text

namespace Use

structure IsServed (lookup : Text → Option Text) (u : Use) : Prop where
  plain : IsPlain u.before
  named : u.key ≠ []
  inside : '\x7d' ∉ u.key
  found : lookup u.key = some u.value

def source (u : Use) : Text :=
  u.before ++ (opening ++ (u.key ++ ['\x7d']))

def written (u : Use) : Text :=
  u.before ++ u.value

end Use

theorem expand_use {u : Use} (served : u.IsServed lookup) (rest : Text) :
    expand lookup (u.source ++ rest) = (expand lookup rest).map (u.written ++ ·) := by
  have reference : expand lookup (opening ++ (u.key ++ '\x7d' :: rest)) =
      (expand lookup rest).map (u.value ++ ·) := by
    rw [expand, pieces_reference served.inside, expandAll, Piece.expand, if_neg served.named,
      served.found, expand]
    cases expandAll lookup (pieces rest) <;> rfl
  have split : u.source ++ rest = u.before ++ (opening ++ (u.key ++ '\x7d' :: rest)) := by
    simp [Use.source]
  rw [split, expand_append served.plain (by simp [opening]), reference]
  cases expand lookup rest <;> simp [Except.map, Use.written]

theorem expand_uses {uses : List Use} (served : ∀ u ∈ uses, u.IsServed lookup) (rest : Text) :
    expand lookup (uses.flatMap Use.source ++ rest) =
      (expand lookup rest).map (uses.flatMap Use.written ++ ·) := by
  induction uses with
  | nil => cases h : expand lookup rest <;> simp [h, Except.map]
  | cons u uses ih =>
    obtain ⟨first, others⟩ := List.forall_mem_cons.mp served
    rw [List.flatMap_cons, List.append_assoc, expand_use first, ih others]
    cases expand lookup rest <;> simp [Except.map]

/-- What stands behind the opening of a reference that cannot be replaced: it is not closed, it
encloses no name, or it names no variable. -/
inductive Offends (lookup : Text → Option Text) : Text → Fault → Prop
  | unterminated {key : Text} (unclosed : '\x7d' ∉ key) : Offends lookup key (.unterminated key)
  | unnamed (after : Text) : Offends lookup ('\x7d' :: after) .unnamed
  | missing {key : Text} (named : key ≠ []) (inside : '\x7d' ∉ key) (unknown : lookup key = none)
      (after : Text) : Offends lookup (key ++ '\x7d' :: after) (.missing key)

theorem Offends.expand (offends : Offends lookup rest e) :
    expand lookup (opening ++ rest) = .error e := by
  cases offends with
  | unterminated unclosed =>
    rw [Expand.expand, pieces_unclosed unclosed, expandAll]
    rfl
  | unnamed after =>
    have enclosed : pieces (opening ++ '\x7d' :: after) = .reference [] :: pieces after :=
      pieces_reference List.not_mem_nil
    rw [Expand.expand, enclosed, expandAll]
    rfl
  | missing named inside unknown after =>
    rw [Expand.expand, pieces_reference inside, expandAll, Piece.expand, if_neg named, unknown]
    rfl

/-- How a text ends behind the references that can be replaced: without a further one, or with one
that cannot be replaced. -/
inductive Ending (lookup : Text → Option Text) : Text → Except Fault Text → Prop
  | last {t : Text} (plain : IsPlain t) : Ending lookup t (.ok t)
  | stuck {t rest : Text} {e : Fault} (plain : IsPlain t) (offends : Offends lookup rest e) :
    Ending lookup (t ++ (opening ++ rest)) (.error e)

theorem Ending.expand {result : Except Fault Text} (ending : Ending lookup rest result) :
    expand lookup rest = result := by
  cases ending with
  | last plain => exact expand_of_isPlain plain
  | stuck plain offends =>
    rw [expand_append plain (by simp [opening]), offends.expand]
    rfl

/-- Read from the left, every text is a row of references that can be replaced, and an ending. -/
theorem exists_ending (lookup : Text → Option Text) (s : Text) :
    ∃ (uses : List Use) (rest : Text) (result : Except Fault Text),
      (∀ u ∈ uses, u.IsServed lookup) ∧ s = uses.flatMap Use.source ++ rest ∧
      Ending lookup rest result := by
  induction size : s.length using Nat.strong_induction_on generalizing s with
  | _ n ih =>
    subst size
    rcases isPlain_or_exists s with plain | ⟨before, behind, plain, rfl⟩
    · exact ⟨[], _, _, by simp, rfl, .last plain⟩
    · by_cases closed : '\x7d' ∈ behind
      · obtain ⟨key, after, rfl, inside⟩ := List.eq_append_cons_of_mem closed
        by_cases named : key = []
        · subst named
          exact ⟨[], _, _, by simp, rfl, .stuck plain (.unnamed after)⟩
        · cases found : lookup key with
          | none =>
            exact ⟨[], _, _, by simp, rfl, .stuck plain (.missing named inside found after)⟩
          | some value =>
            have shorter : after.length <
                (before ++ (opening ++ (key ++ '\x7d' :: after))).length := by
              simp
              omega
            obtain ⟨uses, rest, result, served, rfl, ending⟩ := ih _ shorter after rfl
            refine ⟨⟨before, key, value⟩ :: uses, rest, result, ?_, ?_, ending⟩
            · exact List.forall_mem_cons.mpr ⟨⟨plain, named, inside, found⟩, served⟩
            · simp [Use.source]
      · exact ⟨[], _, _, by simp, rfl, .stuck plain (.unterminated closed)⟩

/-- An expansion replaces every reference by the value of its variable, as it stands, and leaves all
other text. It fails just where, from the left, the first reference stands that is not closed,
encloses no name, or names no variable, and tells which of these it is. -/
theorem expand_single_pass (lookup : Text → Option Text) (s : Text) :
    (∀ out, expand lookup s = .ok out ↔ ∃ (uses : List Use) (last : Text),
      (∀ u ∈ uses, u.IsServed lookup) ∧ IsPlain last ∧
      s = uses.flatMap Use.source ++ last ∧ out = uses.flatMap Use.written ++ last) ∧
    ∀ e, expand lookup s = .error e ↔ ∃ (uses : List Use) (before rest : Text),
      (∀ u ∈ uses, u.IsServed lookup) ∧ IsPlain before ∧
      s = uses.flatMap Use.source ++ (before ++ (opening ++ rest)) ∧ Offends lookup rest e := by
  have reads : ∀ {uses : List Use} {rest result}, (∀ u ∈ uses, u.IsServed lookup) →
      Ending lookup rest result → expand lookup (uses.flatMap Use.source ++ rest) =
        result.map (uses.flatMap Use.written ++ ·) := by
    intro uses rest result served ending
    rw [expand_uses served, ending.expand]
  obtain ⟨uses, rest, result, served, split, ending⟩ := exists_ending lookup s
  have read := split ▸ reads served ending
  refine ⟨fun out => ⟨fun found => ?_, ?_⟩, fun e => ⟨fun failed => ?_, ?_⟩⟩
  · cases ending with
    | last plain =>
      exact ⟨uses, rest, served, plain, split, Except.ok.inj (found.symm.trans read)⟩
    | stuck plain offends => cases found.symm.trans read
  · rintro ⟨uses, last, served, plain, rfl, rfl⟩
    exact reads served (.last plain)
  · cases ending with
    | last plain => cases failed.symm.trans read
    | stuck plain offends =>
      obtain rfl := Except.error.inj (failed.symm.trans read)
      exact ⟨uses, _, _, served, plain, split, offends⟩
  · rintro ⟨uses, before, rest, served, plain, rfl, offends⟩
    exact reads served (.stuck plain offends)

/-- A dollar sign in front of a reference stays, and a value that looks like a reference is not
expanded; of two faults the first one is told. -/
example :
    let lookup := fun key : Text =>
      if key = ['A'] then some "$\x7bA\x7d".toList else if key = ['B'] then some [] else none
    expand lookup "$$\x7bA\x7d$\x7bB\x7d$" = .ok "$$\x7bA\x7d$".toList ∧
      expand lookup "$\x7bA\x7d$\x7bC\x7d$\x7b" = .error (.missing ['C']) := by
  decide +kernel

end SqlCompose.Expand
