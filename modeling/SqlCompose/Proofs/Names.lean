import Mathlib.Data.Char
import Mathlib.Data.List.Forall2
import SqlCompose.Name
import SqlCompose.Proofs.Lexing.Words
import SqlCompose.Proofs.Fragments.Lines

/-! Paths of names and the texts that spell them. A path is read from exactly those texts that are
spellings of its names with dots between them; the SQL of a path is one of them. -/

namespace SqlCompose

namespace Doubled

variable {q c : Char} {s inner after : Text}

theorem encode_cons_self (q : Char) (s : Text) : encode q (q :: s) = q :: q :: encode q s := by
  simp [encode]

theorem encode_cons_of_ne (other : c ≠ q) : encode q (c :: s) = c :: encode q s := by
  simp [encode, other]

theorem read_encode (inner : Text) (other : ∀ d ∈ after.head?, d ≠ q) :
    read q (encode q inner ++ q :: after) = some (inner, after) := by
  induction inner with
  | nil =>
    cases after with
    | nil => simp [encode, read]
    | cons d after => simp [encode, read, other d rfl]
  | cons c inner ih =>
    by_cases same : c = q
    · subst same
      rw [encode_cons_self, List.cons_append, List.cons_append, read.eq_def]
      simp [ih]
    · rw [encode_cons_of_ne same, List.cons_append, read.eq_def]
      simp [same, ih]

theorem read_eq_some_iff :
    read q s = some (inner, after) ↔
      s = encode q inner ++ q :: after ∧ ∀ d ∈ after.head?, d ≠ q := by
  constructor
  · intro h
    fun_induction read q s generalizing inner after with
    | case1 => cases h
    | case2 =>
      obtain ⟨rfl, rfl⟩ := Prod.mk.inj (Option.some.inj h)
      simp [encode]
    | case3 rest ih =>
      obtain ⟨⟨behind, end'⟩, later, same⟩ := Option.map_eq_some_iff.mp h
      obtain ⟨rfl, rfl⟩ := Prod.mk.inj same
      obtain ⟨text, other⟩ := ih later
      exact ⟨by rw [encode_cons_self, text]; rfl, other⟩
    | case4 d rest other =>
      obtain ⟨rfl, rfl⟩ := Prod.mk.inj (Option.some.inj h)
      simpa [encode] using other
    | case5 c s different ih =>
      obtain ⟨⟨behind, end'⟩, later, same⟩ := Option.map_eq_some_iff.mp h
      obtain ⟨rfl, rfl⟩ := Prod.mk.inj same
      obtain ⟨text, other⟩ := ih later
      exact ⟨by rw [encode_cons_of_ne different, text]; rfl, other⟩
  · rintro ⟨rfl, other⟩
    exact read_encode inner other

end Doubled

/-- The words `[l_][l0-9_$#]*`, where `l` is any of the letters. -/
def IsIdentifier (letter : Char → Prop) : Text → Prop
  | [] => False
  | c :: s => (letter c ∨ c = '_') ∧
      ∀ d ∈ s, letter d ∨ ('0' ≤ d ∧ d ≤ '9') ∨ d = '_' ∨ d = '$' ∨ d = '#'

def IsLowerLetter (c : Char) : Prop :=
  'a' ≤ c ∧ c ≤ 'z'

def IsLetter (c : Char) : Prop :=
  IsLowerLetter c ∨ ('A' ≤ c ∧ c ≤ 'Z')

variable {c : Char} {w : Text}

theorem isLower_iff : c.isLower = true ↔ IsLowerLetter c :=
  Bool.and_eq_true_iff.trans (and_congr decide_eq_true_iff decide_eq_true_iff)

theorem isUpper_iff : c.isUpper = true ↔ 'A' ≤ c ∧ c ≤ 'Z' :=
  decide_eq_true_iff

theorem isAlpha_iff_isLetter : c.isAlpha = true ↔ IsLetter c :=
  Bool.or_eq_true_iff.trans ((or_congr isUpper_iff isLower_iff).trans or_comm)

theorem isNameStart_iff : isNameStart c = true ↔ IsLetter c ∨ c = '_' := by
  simp [isNameStart, isAlpha_iff_isLetter]

theorem isNameChar_iff :
    isNameChar c = true ↔ IsLetter c ∨ ('0' ≤ c ∧ c ≤ '9') ∨ c = '_' ∨ c = '$' ∨ c = '#' := by
  simp [isNameChar, Char.isAlphanum, isAlpha_iff_isLetter, Char.isDigit, Char.le_def, or_assoc]

theorem isPlainName_iff : isPlainName w = true ↔ IsIdentifier IsLetter w := by
  cases w with
  | nil => simp [isPlainName, IsIdentifier]
  | cons c s => simp [isPlainName, IsIdentifier, isNameStart_iff, isNameChar_iff]

theorem not_isUpper_of_isLowerLetter (lower : IsLowerLetter c) : c.isUpper = false := by
  refine Bool.eq_false_iff.mpr fun capital => ?_
  have low := lower.1.trans (isUpper_iff.mp capital).2
  exact absurd low (by decide)

theorem toLower_cases (c : Char) :
    (c.isUpper = true ∧ IsLowerLetter c.toLower) ∨ (c.isUpper = false ∧ c.toLower = c) := by
  by_cases capital : 'A' ≤ c ∧ c ≤ 'Z'
  · have moved : c.toLower.val = c.val + 32 := congrArg Char.val (dif_pos capital)
    refine .inl ⟨isUpper_iff.mpr capital, ?_⟩
    simp only [IsLowerLetter, Char.le_def, moved, UInt32.le_iff_toNat_le, UInt32.toNat_add]
      at capital ⊢
    grind
  · exact .inr ⟨Bool.eq_false_iff.mpr (mt isUpper_iff.mp capital), dif_neg capital⟩

theorem isUpper_toLower (c : Char) : c.toLower.isUpper = false := by
  rcases toLower_cases c with ⟨-, lower⟩ | ⟨small, same⟩
  · exact not_isUpper_of_isLowerLetter lower
  · rwa [same]

theorem isLetter_or_iff {p : Prop} (other : p → c.isUpper = false) :
    (IsLetter c ∨ p) ∧ c.isUpper = false ↔ IsLowerLetter c ∨ p := by
  constructor
  · rintro ⟨(lower | capital) | rest, small⟩
    · exact .inl lower
    · rw [isUpper_iff.mpr capital] at small
      cases small
    · exact .inr rest
  · rintro (lower | rest)
    · exact ⟨.inl (.inl lower), not_isUpper_of_isLowerLetter lower⟩
    · exact ⟨.inr rest, other rest⟩

theorem isFoldedName_iff : isFoldedName w = true ↔ IsIdentifier IsLowerLetter w := by
  cases w with
  | nil => simp [isFoldedName, isPlainName, IsIdentifier]
  | cons c s =>
    have first : c = '_' → c.isUpper = false := by
      rintro rfl
      decide
    have later : ∀ d : Char, ('0' ≤ d ∧ d ≤ '9') ∨ d = '_' ∨ d = '$' ∨ d = '#' →
        d.isUpper = false := by
      rintro d (⟨-, digit⟩ | rfl | rfl | rfl)
      · refine Bool.eq_false_iff.mpr fun capital => ?_
        have low := (isUpper_iff.mp capital).1.trans digit
        exact absurd low (by decide)
      all_goals decide
    simp only [isFoldedName, Bool.and_eq_true, isPlainName_iff, IsIdentifier, List.all_cons,
      Bool.not_eq_true', List.all_eq_true]
    constructor
    · rintro ⟨⟨start, rest⟩, small, folded⟩
      exact ⟨(isLetter_or_iff first).mp ⟨start, small⟩,
        fun d mem => (isLetter_or_iff (later d)).mp ⟨rest d mem, folded d mem⟩⟩
    · rintro ⟨start, rest⟩
      obtain ⟨start, small⟩ := (isLetter_or_iff first).mpr start
      have both := fun d mem => (isLetter_or_iff (later d)).mpr (rest d mem)
      exact ⟨⟨start, fun d mem => (both d mem).1⟩, small, fun d mem => (both d mem).2⟩

theorem apply_toLower {p : Char → Bool} (letters : ∀ d, d.isAlpha = true → p d = true) (c : Char) :
    p c.toLower = p c := by
  rcases toLower_cases c with ⟨capital, lower⟩ | ⟨-, same⟩
  · rw [letters c (isAlpha_iff_isLetter.mpr (.inr (isUpper_iff.mp capital))),
      letters c.toLower (isAlpha_iff_isLetter.mpr (.inl lower))]
  · rw [same]

theorem isFoldedName_toLower :
    isFoldedName (w.map Char.toLower) = true ↔ IsIdentifier IsLetter w := by
  have first : ∀ d : Char, d.isAlpha = true → isNameStart d = true := fun d h => by
    simp [isNameStart, h]
  have later : ∀ d : Char, d.isAlpha = true → isNameChar d = true := fun d h => by
    simp [isNameChar, Char.isAlphanum, h]
  have small : (w.map Char.toLower).all (fun c => !c.isUpper) = true := by
    rw [List.all_map, List.all_eq_true]
    exact fun c _ => congrArg not (isUpper_toLower c)
  rw [← isPlainName_iff, isFoldedName, small, Bool.and_true]
  cases w with
  | nil => rfl
  | cons c s =>
    simp [isPlainName, apply_toLower first, apply_toLower later]

theorem IsIdentifier.ne_nil {letter : Char → Prop} (word : IsIdentifier letter w) : w ≠ [] := by
  rintro rfl
  cases word

theorem IsIdentifier.nameChars (word : IsIdentifier IsLetter w) : ∀ c ∈ w, isNameChar c = true := by
  have plain := isPlainName_iff.mpr word
  cases w with
  | nil => cases word
  | cons c s =>
    simp only [isPlainName, Bool.and_eq_true, List.all_eq_true] at plain
    intro d mem
    rcases List.mem_cons.mp mem with rfl | later
    · exact Lexeme.isNameChar_of_isNameStart plain.1
    · exact plain.2 d later

theorem IsIdentifier.not_mem (word : IsIdentifier IsLetter w) (other : isNameChar c = false) :
    c ∉ w := by
  intro mem
  rw [word.nameChars c mem] at other
  cases other

theorem IsIdentifier.takeWhile_dropWhile {after : Text} (word : IsIdentifier IsLetter w)
    (ends : ∀ d ∈ after.head?, d = '.') :
    (w ++ after).takeWhile (· ≠ '.') = w ∧ (w ++ after).dropWhile (· ≠ '.') = after := by
  have noDot : ∀ c ∈ w, decide (c ≠ '.') = true := by
    intro c mem
    simp only [decide_eq_true_eq]
    rintro rfl
    exact word.not_mem (by decide) mem
  rw [List.takeWhile_append_of_pos noDot, List.dropWhile_append_of_pos noDot]
  cases after with
  | nil => simp
  | cons d after => simp [ends d rfl]

structure IsTight (s : Text) : Prop where
  first : ∃ c ∈ s.head?, isBlank c = false
  last : ∃ c ∈ s.getLast?, isBlank c = false

namespace IsTight

variable {s t : Text}

theorem ne_nil (h : IsTight s) : s ≠ [] := by
  rintro rfl
  simpa using h.first

theorem append (h : IsTight s) (g : IsTight t) : IsTight (s ++ t) := by
  obtain ⟨c, first, tight⟩ := h.first
  obtain ⟨d, last, tight'⟩ := g.last
  exact ⟨⟨c, by simp [Option.mem_def.mp first], tight⟩,
    ⟨d, by simp [Option.mem_def.mp last], tight'⟩⟩

theorem of_forall (some : s ≠ []) (tight : ∀ c ∈ s, isBlank c = false) : IsTight s :=
  ⟨⟨s.head some, List.head_mem_head? some, tight _ (List.head_mem some)⟩,
    ⟨s.getLast some, List.getLast_mem_getLast? some, tight _ (List.getLast_mem some)⟩⟩

theorem trim_eq (h : IsTight s) : s.trim = s := by
  obtain ⟨c, first, tight⟩ := h.first
  obtain ⟨rest, rfl⟩ := List.head?_eq_some_iff.mp first
  have start : Text.trimStart (c :: rest) = c :: rest := by simp [Text.trimStart, tight]
  rw [Text.trim, start, Text.trimEnd_eq_self_iff]
  obtain ⟨d, last, tight'⟩ := h.last
  intro e mem
  rwa [Option.mem_unique mem last]

theorem joinWith {sep : Text} {ws : List Text} (some : ws ≠ []) (tight : IsTight sep)
    (each : ∀ w ∈ ws, IsTight w) : IsTight (Text.joinWith sep ws) := by
  induction ws with
  | nil => exact absurd rfl some
  | cons w ws ih =>
    have first := each w (by simp)
    cases ws with
    | nil => exact first
    | cons v ws =>
      have behind := ih (by simp) fun u mem => each u (List.mem_cons_of_mem w mem)
      exact (first.append tight).append behind

end IsTight

namespace SimpleName

variable {n : SimpleName} {full s after : Text}

/-- The texts that spell a name: an identifier in any case spells the one in lower case, and a
text between quotes, with the quotes in it doubled, spells that text. -/
inductive Spells : Text → SimpleName → Prop
  | unquoted {w s : Text} {folded : isFoldedName s = true} (word : IsIdentifier IsLetter w)
      (lower : w.map Char.toLower = s) : Spells w (unquoted s folded)
  | quoted (inner : Text) (printable : inner ≠ [] ∧ '\x00' ∉ inner) :
      Spells (Doubled.enclose '"' inner) (quoted inner printable)

/-- How a name is kept: an identifier in lower case, or some text without NUL. -/
def IsKept : SimpleName → Prop
  | unquoted s _ => IsIdentifier IsLowerLetter s
  | quoted s _ => s ≠ [] ∧ '\x00' ∉ s

theorem isKept (n : SimpleName) : n.IsKept := by
  cases n with
  | unquoted s folded => exact isFoldedName_iff.mp folded
  | quoted s printable => exact printable

theorem spells_sql (n : SimpleName) : Spells n.sql n := by
  cases n with
  | unquoted s folded =>
    obtain ⟨plain, small⟩ := Bool.and_eq_true_iff.mp folded
    refine .unquoted (isPlainName_iff.mp plain) ?_
    have same : ∀ c ∈ s, c.toLower = id c := fun c mem => by
      rcases toLower_cases c with ⟨capital, -⟩ | ⟨-, same⟩
      · simpa [capital] using List.all_eq_true.mp small c mem
      · exact same
    rw [sql, List.map_congr_left same, List.map_id]
  | quoted s printable => exact .quoted s printable

namespace Spells

theorem isTight (spells : Spells w n) : IsTight w := by
  cases spells with
  | unquoted word =>
    exact .of_forall word.ne_nil fun c mem => isBlank_of_isNameChar (word.nameChars c mem)
  | quoted inner printable =>
    have last : (Doubled.enclose '"' inner).getLast? = some '"' := List.getLast?_concat
    exact ⟨⟨'"', rfl, by decide⟩, ⟨'"', last, by decide⟩⟩

theorem no_nul (spells : Spells w n) : '\x00' ∉ w := by
  cases spells with
  | unquoted word => exact word.not_mem (by decide)
  | quoted inner printable =>
    simp [Doubled.enclose, Doubled.mem_encode_iff, printable.2]

end Spells

theorem exists_spells_iff : (∃ n, Spells w n) ↔
    (IsIdentifier IsLetter w ∨ ∃ inner ≠ [], w = Doubled.enclose '"' inner) ∧ '\x00' ∉ w := by
  constructor
  · rintro ⟨n, spells⟩
    refine ⟨?_, spells.no_nul⟩
    cases spells with
    | unquoted word => exact .inl word
    | quoted inner printable => exact .inr ⟨inner, printable.1, rfl⟩
  · rintro ⟨word | ⟨inner, some, rfl⟩, noNul⟩
    · exact ⟨unquoted _ (isFoldedName_toLower.mpr word), .unquoted word rfl⟩
    · simp only [Doubled.enclose, List.cons_append, List.mem_cons, List.mem_append,
        Doubled.mem_encode_iff, not_or] at noNul
      exact ⟨quoted inner ⟨some, noNul.2.1⟩, .quoted inner _⟩

theorem readPlain_eq_ok_iff : NamePath.readPlain full w = .ok n ↔
    IsIdentifier IsLetter w ∧ ∃ folded, n = unquoted (w.map Char.toLower) folded := by
  rw [← isFoldedName_toLower, NamePath.readPlain]
  constructor
  · intro h
    split at h
    · next folded => exact ⟨folded, folded, (Except.ok.inj h).symm⟩
    · split at h <;> cases h
  · rintro ⟨folded, -, rfl⟩
    rw [dif_pos folded]

theorem readSegment_of_quote : NamePath.readSegment full ('"' :: s) = .ok (n, after) ↔
    ∃ inner, Doubled.read '"' s = some (inner, after) ∧
      ∃ printable, n = quoted inner printable := by
  simp only [NamePath.readSegment]
  constructor
  · intro h
    split at h
    · cases h
    · next inner rest found =>
      split at h
      · next printable =>
        obtain ⟨rfl, rfl⟩ := Prod.mk.inj (Except.ok.inj h)
        exact ⟨inner, found, printable, rfl⟩
      · cases h
  · rintro ⟨inner, found, printable, rfl⟩
    simp [found, printable]

theorem readSegment_of_ne (other : ∀ d ∈ s.head?, d ≠ '"') :
    NamePath.readSegment full s = .ok (n, after) ↔
      NamePath.readPlain full (s.takeWhile (· ≠ '.')) = .ok n ∧ s.dropWhile (· ≠ '.') = after := by
  unfold NamePath.readSegment
  split
  · exact absurd rfl (other '"' rfl)
  · simp [Except.bind_eq_ok_iff]

theorem spells_of_readSegment (h : NamePath.readSegment full s = .ok (n, after)) :
    ∃ w, Spells w n ∧ s = w ++ after := by
  by_cases quote : s.head? = some '"'
  · obtain ⟨s, rfl⟩ := List.head?_eq_some_iff.mp quote
    obtain ⟨inner, found, printable, rfl⟩ := readSegment_of_quote.mp h
    obtain ⟨rfl, -⟩ := Doubled.read_eq_some_iff.mp found
    exact ⟨_, .quoted inner printable, by simp [Doubled.enclose]⟩
  · have other : ∀ d ∈ s.head?, d ≠ '"' := by
      rintro d head rfl
      exact quote head
    obtain ⟨read, rfl⟩ := (readSegment_of_ne other).mp h
    obtain ⟨word, folded, rfl⟩ := readPlain_eq_ok_iff.mp read
    exact ⟨_, .unquoted word rfl, List.takeWhile_append_dropWhile.symm⟩

theorem Spells.readSegment (spells : Spells w n) (ends : ∀ d ∈ after.head?, d = '.') :
    NamePath.readSegment full (w ++ after) = .ok (n, after) := by
  cases spells with
  | unquoted word lower =>
    have other : ∀ d ∈ (w ++ after).head?, d ≠ '"' := by
      rintro d head rfl
      rw [List.head?_append_of_ne_nil w word.ne_nil] at head
      exact word.not_mem (by decide) (List.mem_of_mem_head? head)
    obtain ⟨whole, rest⟩ := word.takeWhile_dropWhile ends
    subst lower
    rw [readSegment_of_ne other, whole, rest]
    exact ⟨readPlain_eq_ok_iff.mpr ⟨word, _, rfl⟩, rfl⟩
  | quoted inner printable =>
    have found := Doubled.read_encode (q := '"') inner fun d head => by
      rw [ends d head]
      decide
    have text : Doubled.enclose '"' inner ++ after =
        '"' :: (Doubled.encode '"' inner ++ '"' :: after) := by simp [Doubled.enclose]
    rw [text]
    exact readSegment_of_quote.mpr ⟨inner, found, printable, rfl⟩

end SimpleName

namespace NamePath

open SimpleName

variable {full s : Text} {n : SimpleName} {ns : List SimpleName} {ws : List Text} {p : NamePath}

theorem segments_ne_nil (p : NamePath) : p.segments ≠ [] := by
  simp [segments]

theorem joinWith_dot (w : Text) (ws : List Text) :
    Text.joinWith ['.'] (w :: ws) = w ++ ws.flatMap ('.' :: ·) := by
  induction ws generalizing w with
  | nil => simp [Text.joinWith]
  | cons v ws ih => simp [Text.joinWith, ih]

theorem readRest_dot {after : Text} (some : s ≠ []) (found : readSegment full s = .ok (n, after))
    (later : readRest full after = .ok ns) : readRest full ('.' :: s) = .ok (n :: ns) := by
  rw [readRest, if_neg (by simp), if_neg some]
  split
  · next failed =>
    rw [found] at failed
    cases failed
  · next found' =>
    obtain ⟨rfl, rfl⟩ := Prod.mk.inj (Except.ok.inj (found.symm.trans found'))
    rw [later]
    rfl

theorem readRest_of_spells (spells : List.Forall₂ Spells ws ns) :
    readRest full (ws.flatMap ('.' :: ·)) = .ok ns := by
  induction spells with
  | nil => simp [readRest]
  | @cons w n ws ns first rest ih =>
    have ends : ∀ d ∈ (ws.flatMap ('.' :: ·)).head?, d = '.' := by
      cases ws <;> simp
    rw [List.flatMap_cons, List.cons_append]
    exact readRest_dot (by simp [first.isTight.ne_nil]) (first.readSegment ends) ih

theorem spells_of_readRest (h : readRest full s = .ok ns) :
    ∃ ws, List.Forall₂ Spells ws ns ∧ s = ws.flatMap ('.' :: ·) := by
  fun_induction readRest full s generalizing ns with
  | case1 =>
    obtain rfl := Except.ok.inj h
    exact ⟨[], .nil, rfl⟩
  | case2 => cases h
  | case3 => cases h
  | case4 => cases h
  | case5 c s dot some n after found ih =>
    cases later : readRest full after with
    | error e =>
      rw [later] at h
      cases h
    | ok behind =>
      rw [later] at h
      obtain rfl := Except.ok.inj h
      obtain ⟨w, spells, rfl⟩ := spells_of_readSegment found
      obtain ⟨ws, rest, rfl⟩ := ih later
      refine ⟨w :: ws, .cons spells rest, ?_⟩
      rw [List.flatMap_cons, not_not.mp dot]
      rfl

theorem forall_of_spells {good : Text → Prop} (each : ∀ w n, Spells w n → good w)
    (spells : List.Forall₂ Spells ws ns) : ∀ w ∈ ws, good w := by
  have both := spells.imp fun w n h => And.intro (each w n h) h
  exact ((List.forall₂_and_left ws ns).mp both).1

theorem not_mem_joinWith_dot_iff {c : Char} (other : c ≠ '.') :
    c ∉ Text.joinWith ['.'] ws ↔ ∀ w ∈ ws, c ∉ w := by
  cases ws with
  | nil => simp [Text.joinWith]
  | cons w ws => simp [joinWith_dot, other]

theorem exists_forall₂_spells (each : ∀ w ∈ ws, ∃ n, Spells w n) :
    ∃ ns, List.Forall₂ Spells ws ns := by
  induction ws with
  | nil => exact ⟨[], .nil⟩
  | cons w ws ih =>
    obtain ⟨first, rest⟩ := List.forall_mem_cons.mp each
    obtain ⟨n, spells⟩ := first
    obtain ⟨ns, behind⟩ := ih rest
    exact ⟨n :: ns, .cons spells behind⟩

theorem readSegments_eq_ok_iff : readSegments s = .ok p ↔
    ∃ ws, List.Forall₂ Spells ws p.segments ∧ s = Text.joinWith ['.'] ws := by
  constructor
  · intro h
    unfold readSegments at h
    split_ifs at h
    split at h
    · cases h
    · next n after found =>
      split at h
      · cases h
      · next ns later =>
        obtain ⟨w, spells, rfl⟩ := spells_of_readSegment found
        obtain ⟨ws, rest, rfl⟩ := spells_of_readRest later
        have whole : ofSegments (n :: ns) = some p := congrArg some (Except.ok.inj h)
        refine ⟨w :: ws, ?_, (joinWith_dot w ws).symm⟩
        rw [segments_ofSegments whole]
        exact .cons spells rest
  · rintro ⟨ws, spells, rfl⟩
    have noNul := (not_mem_joinWith_dot_iff (by decide)).mpr
      (forall_of_spells (fun w n => Spells.no_nul) spells)
    have whole := ofSegments_segments p
    generalize p.segments = ns at spells whole
    cases spells with
    | nil => cases whole
    | @cons w n ws ns first rest =>
      have ends : ∀ d ∈ (ws.flatMap ('.' :: ·)).head?, d = '.' := by
        cases ws <;> simp
      have some : w ++ ws.flatMap ('.' :: ·) ≠ [] := by simp [first.isTight.ne_nil]
      rw [joinWith_dot] at noNul ⊢
      rw [readSegments, if_neg some, if_neg noNul, first.readSegment ends]
      simp only [readRest_of_spells rest]
      exact congrArg Except.ok (Option.some.inj whole)

theorem parse_eq_ok_iff : parse s = .ok p ↔
    ∃ ws, List.Forall₂ Spells ws p.segments ∧ s.trim = Text.joinWith ['.'] ws := by
  rw [← readSegments_eq_ok_iff, parse]
  cases readSegments s.trim <;> simp [Except.mapError]

theorem forall₂_spells_sql (ns : List SimpleName) :
    List.Forall₂ Spells (ns.map SimpleName.sql) ns := by
  rw [List.forall₂_map_left_iff]
  exact List.forall₂_same.mpr fun n _ => spells_sql n

theorem isTight_sql (p : NamePath) : IsTight p.sql := by
  have dot : IsTight ['.'] := .of_forall (by simp) (by rw [List.forall_mem_singleton]; decide)
  exact .joinWith (by simp [segments]) dot
    (forall_of_spells (fun w n => Spells.isTight) (forall₂_spells_sql p.segments))

theorem parse_sql (p : NamePath) : parse p.sql = .ok p :=
  parse_eq_ok_iff.mpr ⟨_, forall₂_spells_sql p.segments, p.isTight_sql.trim_eq⟩

theorem sql_injective : Function.Injective sql := by
  intro p q same
  have read := parse_sql p
  rw [same, parse_sql q] at read
  exact (Except.ok.inj read).symm

theorem exists_parse_iff : (∃ p, parse s = .ok p) ↔
    ∃ ws ≠ [], s.trim = Text.joinWith ['.'] ws ∧ '\x00' ∉ s.trim ∧
      ∀ w ∈ ws, IsIdentifier IsLetter w ∨ ∃ inner ≠ [], w = Doubled.enclose '"' inner := by
  have nul : '\x00' ≠ '.' := by decide
  constructor
  · rintro ⟨p, read⟩
    obtain ⟨ws, spells, text⟩ := parse_eq_ok_iff.mp read
    have each := forall_of_spells (fun w n h => exists_spells_iff.mp ⟨n, h⟩) spells
    refine ⟨ws, ?_, text, ?_, fun w mem => (each w mem).1⟩
    · rintro rfl
      exact p.segments_ne_nil (List.forall₂_nil_left_iff.mp spells)
    · rw [text, not_mem_joinWith_dot_iff nul]
      exact fun w mem => (each w mem).2
  · rintro ⟨ws, some, text, clean, each⟩
    rw [text, not_mem_joinWith_dot_iff nul] at clean
    obtain ⟨ns, spells⟩ := exists_forall₂_spells fun w mem =>
      exists_spells_iff.mpr ⟨each w mem, clean w mem⟩
    cases ns with
    | nil => exact absurd (List.forall₂_nil_right_iff.mp spells) some
    | cons n ns =>
      obtain ⟨p, whole⟩ : ∃ p, ofSegments (n :: ns) = Option.some p := ⟨_, rfl⟩
      rw [← segments_ofSegments whole] at spells
      exact ⟨p, parse_eq_ok_iff.mpr ⟨ws, spells, text⟩⟩

/-- A path that is read has a name for each spelling in the text, kept as an identifier in lower
case or as a text without NUL. Every path is read from its own SQL, which thus tells it from any
other path. A text is read as some path exactly if it is, without the blanks around it, a row of
identifiers and of texts between quotes, with dots between them. -/
theorem parse_spellings :
    (∀ (s : Text) (p : NamePath), parse s = .ok p →
      p.segments ≠ [] ∧ (∀ n ∈ p.segments, n.IsKept) ∧
      ∃ ws, List.Forall₂ Spells ws p.segments ∧ s.trim = Text.joinWith ['.'] ws) ∧
    (∀ p : NamePath, parse p.sql = .ok p) ∧
    Function.Injective sql ∧
    ∀ s : Text, (∃ p, parse s = .ok p) ↔
      ∃ ws ≠ [], s.trim = Text.joinWith ['.'] ws ∧ '\x00' ∉ s.trim ∧
        ∀ w ∈ ws, IsIdentifier IsLetter w ∨ ∃ inner ≠ [], w = Doubled.enclose '"' inner :=
  ⟨fun _ p read => ⟨p.segments_ne_nil, fun n _ => n.isKept, parse_eq_ok_iff.mp read⟩, parse_sql,
    sql_injective, fun _ => exists_parse_iff⟩

def samplePath : NamePath :=
  ⟨[.unquoted "sales" (by decide), .quoted " a\".B" (by decide)], .unquoted "id_1$" (by decide)⟩

theorem parse_spellings_sample :
    samplePath.sql = "sales.\" a\"\".B\".id_1$" ∧
    parse "sales.\" a\"\".B\".id_1$" = .ok samplePath ∧
    (∀ n ∈ samplePath.segments, n.IsKept) ∧
    ∃ p, parse "\tSales.\" a\"\".B\".ID_1$ " = .ok p := by
  obtain ⟨kept, own, -, read⟩ := parse_spellings
  have sql : samplePath.sql = "sales.\" a\"\".B\".id_1$" := by decide
  have parsed := own samplePath
  refine ⟨sql, sql ▸ parsed, (kept _ _ parsed).2.1, ?_⟩
  refine (read _).mpr ⟨["Sales", "\" a\"\".B\"", "ID_1$"], by simp, by decide, by decide, ?_⟩
  simp only [List.forall_mem_cons]
  refine ⟨?_, ?_, ?_, by simp⟩
  · exact .inl (isPlainName_iff.mp (by decide))
  · exact .inr ⟨" a\".B", by decide, by decide⟩
  · exact .inl (isPlainName_iff.mp (by decide))

end NamePath

end SqlCompose
