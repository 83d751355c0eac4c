import SqlCompose.Proofs.Fragments.Reformatting
import SqlCompose.Proofs.Lexing.Literals
import SqlCompose.Proofs.Names

/-! Text literals as rows of quoted pieces. The literal of a text has its lines as pieces, each a
string token of its own, with the number of the line end between them. Reading joins the pieces of
any such row, whether there are line ends in them or not, so that a text with line ends can be read
from more literals than the one that is written for it. -/

namespace SqlCompose.TextLiteral

/-- The literal with these pieces: each in quotes, and the number of a line end between them. -/
def ofPieces (ps : List Text) : Text :=
  Text.joinWith interruption (ps.map (Doubled.enclose '\''))

theorem ofPieces_singleton (p : Text) :
    ofPieces [p] = '\'' :: (Doubled.encode '\'' p ++ ['\'']) := rfl

theorem ofPieces_cons_cons (p q : Text) (ps : List Text) : ofPieces (p :: q :: ps) =
    '\'' :: (Doubled.encode '\'' p ++ '\'' :: (interruption ++ ofPieces (q :: ps))) := by
  simp [ofPieces, Text.joinWith, Doubled.enclose]

theorem exists_ofPieces_eq_cons (p : Text) (ps : List Text) :
    ∃ rest, ofPieces (p :: ps) = '\'' :: rest := by
  cases ps with
  | nil => exact ⟨_, ofPieces_singleton p⟩
  | cons q ps => exact ⟨_, ofPieces_cons_cons p q ps⟩

theorem head?_interruption (rest : Text) : (interruption ++ rest).head? = some '|' := by
  have bar : interruption.head? = some '|' := by decide +kernel
  rw [List.head?_append, bar]
  rfl

theorem splice_eq : splice = interruption ++ ['\''] := by
  decide +kernel

theorem encode_eq (s : Text) : encode s = ofPieces s.lines := by
  induction s with
  | nil => rfl
  | cons c s ih =>
    obtain ⟨l, ls, known⟩ := List.exists_cons_of_ne_nil (Text.lines_ne_nil s)
    rw [known] at ih
    by_cases lineEnd : c = '\n'
    · have written : encode (c :: s) = '\'' :: '\'' :: (interruption ++ encode s) := by
        simp [encode, encodeChar, lineEnd, lineEnd_eq]
      rw [written, ih, Text.lines, if_pos lineEnd, known, ofPieces_cons_cons]
      rfl
    · rw [Text.lines_cons_of_ne lineEnd known]
      have written : encode (c :: s) = '\'' :: (encodeChar c ++ (encode s).tail) := by
        simp [encode]
      have char : Doubled.encode '\'' (c :: l) = encodeChar c ++ Doubled.encode '\'' l := by
        simp [Doubled.encode, encodeChar, lineEnd]
      rw [written, ih]
      cases ls with
      | nil => simp [ofPieces_singleton, char]
      | cons q ls => simp [ofPieces_cons_cons, char]

theorem length_lines (s : Text) : s.lines.length = s.count '\n' + 1 := by
  induction s with
  | nil => rfl
  | cons c s ih =>
    obtain ⟨l, ls, known⟩ := List.exists_cons_of_ne_nil (Text.lines_ne_nil s)
    by_cases lineEnd : c = '\n'
    · rw [Text.lines, if_pos lineEnd, List.length_cons, ih, lineEnd, List.count_cons_self]
    · rw [List.count_cons_of_ne lineEnd, ← ih, Text.lines_cons_of_ne lineEnd known, known]
      rfl

theorem decodePieces_closed (p : Text) :
    decodePieces (Doubled.encode '\'' p ++ ['\'']) = some p := by
  have read : Doubled.read '\'' (Doubled.encode '\'' p ++ ['\'']) = some (p, []) :=
    Doubled.read_encode p (by simp)
  rw [decodePieces]
  split
  · next failed =>
    rw [read] at failed
    cases failed
  · next found =>
    rw [read] at found
    obtain ⟨rfl, rfl⟩ := Prod.mk.inj (Option.some.inj found)
    rfl

theorem decodePieces_spliced (p rest : Text) :
    decodePieces (Doubled.encode '\'' p ++ '\'' :: (splice ++ rest)) =
      (decodePieces rest).map fun tail => p ++ '\n' :: tail := by
  have bar : ∀ d ∈ (splice ++ rest).head?, d ≠ '\'' := by
    intro d head
    rw [splice_eq, List.append_assoc, head?_interruption] at head
    obtain rfl := Option.some.inj head
    decide
  have read := Doubled.read_encode p bar
  rw [decodePieces]
  split
  · next failed =>
    rw [read] at failed
    cases failed
  · next found =>
    rw [read] at found
    obtain ⟨rfl, rfl⟩ := Prod.mk.inj (Option.some.inj found)
    have more : splice ++ rest ≠ [] := by simp [splice_eq]
    rw [if_neg more]
    have split : Text.stripLead splice (splice ++ rest) = some rest :=
      Text.stripLead_eq_some_iff.mpr rfl
    split
    · next failed =>
      rw [split] at failed
      cases failed
    · next found =>
      rw [split] at found
      obtain rfl := Option.some.inj found
      rfl

theorem decodePieces_eq_some_iff {t s : Text} : decodePieces t = some s ↔
    ∃ ps ≠ [], '\'' :: t = ofPieces ps ∧ s = Text.unlines ps := by
  constructor
  · intro h
    fun_induction decodePieces t generalizing s with
    | case1 => cases h
    | case2 t p read =>
      obtain rfl := Option.some.inj h
      obtain ⟨text, -⟩ := Doubled.read_eq_some_iff.mp read
      exact ⟨[p], by simp, by rw [text, ofPieces_singleton], rfl⟩
    | case3 => cases h
    | case4 t p after read _ rest split ih =>
      obtain ⟨tail, later, rfl⟩ := Option.map_eq_some_iff.mp h
      obtain ⟨ps, some, behind, rfl⟩ := ih later
      obtain ⟨q, ps, rfl⟩ := List.exists_cons_of_ne_nil some
      obtain ⟨text, -⟩ := Doubled.read_eq_some_iff.mp read
      obtain rfl := Text.stripLead_eq_some_iff.mp split
      refine ⟨p :: q :: ps, by simp, ?_, rfl⟩
      rw [text, ofPieces_cons_cons, ← behind, splice_eq]
      simp
  · rintro ⟨ps, some, text, rfl⟩
    induction ps generalizing t with
    | nil => exact absurd rfl some
    | cons p ps ih =>
      cases ps with
      | nil =>
        obtain rfl := (List.cons.inj (text.trans (ofPieces_singleton p))).2
        exact decodePieces_closed p
      | cons q ps =>
        obtain rfl := (List.cons.inj (text.trans (ofPieces_cons_cons p q ps))).2
        obtain ⟨rest, opened⟩ := exists_ofPieces_eq_cons q ps
        have behind : interruption ++ ofPieces (q :: ps) = splice ++ rest := by
          rw [opened, splice_eq, List.append_assoc]
          rfl
        rw [behind, decodePieces_spliced, ih (by simp) opened.symm]
        rfl

theorem decode_eq_some_iff {l s : Text} :
    decode l = some s ↔ ∃ ps ≠ [], l = ofPieces ps ∧ s = Text.unlines ps := by
  constructor
  · intro h
    unfold decode at h
    split at h
    · exact decodePieces_eq_some_iff.mp h
    · cases h
  · rintro ⟨ps, some, rfl, rfl⟩
    obtain ⟨p, ps, rfl⟩ := List.exists_cons_of_ne_nil some
    obtain ⟨rest, opened⟩ := exists_ofPieces_eq_cons p ps
    rw [opened]
    exact decodePieces_eq_some_iff.mpr ⟨p :: ps, some, opened.symm, rfl⟩

theorem decode_encode (s : Text) : decode (encode s) = some s :=
  decode_eq_some_iff.mpr ⟨s.lines, s.lines_ne_nil, encode_eq s, s.unlines_lines.symm⟩

theorem mem_ofPieces_of_mem {c : Char} {p : Text} {ps : List Text} (inside : c ∈ p) (mem : p ∈ ps) :
    c ∈ ofPieces ps := by
  induction ps with
  | nil => cases mem
  | cons q ps ih =>
    cases ps with
    | nil =>
      obtain rfl := List.mem_singleton.mp mem
      simp [ofPieces_singleton, Doubled.mem_encode_iff, inside]
    | cons r ps =>
      rw [ofPieces_cons_cons]
      rcases List.mem_cons.mp mem with rfl | later
      · simp [Doubled.mem_encode_iff, inside]
      · simp [ih later]

theorem eq_encode_of_decode {l s : Text} (h : decode l = some s) (inLine : '\n' ∉ l) :
    l = encode s := by
  obtain ⟨ps, some, rfl, rfl⟩ := decode_eq_some_iff.mp h
  obtain ⟨p, ps, rfl⟩ := List.exists_cons_of_ne_nil some
  have whole : ∀ q ∈ p :: ps, '\n' ∉ q := fun q mem inside =>
    inLine (mem_ofPieces_of_mem inside mem)
  rw [encode_eq, Text.lines_unlines whole]

/-- A literal is read as the text that its pieces spell with line ends between them. The literals
without line ends among them are those that are written, one for each text; a line end in a piece is
read as well, though it is never written. -/
theorem decode_spelled (l s : Text) :
    (decode l = some s ↔ ∃ ps ≠ [], l = ofPieces ps ∧ s = Text.unlines ps) ∧
    (l = encode s ↔ decode l = some s ∧ '\n' ∉ l) := by
  refine ⟨decode_eq_some_iff, ?_, ?_⟩
  · rintro rfl
    exact ⟨decode_encode s, inLine_encode s⟩
  · rintro ⟨read, inLine⟩
    exact eq_encode_of_decode read inLine

example : decode "'\n'" = some "\n".toList ∧ encode "\n" = "''||CHR(10)||''".toList := by
  decide +kernel

/-- The tokens between the pieces of a literal. -/
def interruptionShapes : List TokenShape :=
  [(.symbol, "||"), (.name, "CHR"), (.symbol, "("), (.number, "10"), (.symbol, ")"),
    (.symbol, "||")]

theorem lexes_word {c : Char} {s rest : Text} {k : TokenKind} {o : List TokenShape}
    (visible : isBlank c = false) (read : Lexeme.Reads c (s ++ rest) k s.length)
    (behind : Lexes rest o) : Lexes (c :: (s ++ rest)) (k.shape (c :: s) :: o) := by
  have token := Lexes.token visible read (by rwa [List.drop_left])
  rwa [List.take_left] at token

theorem lexes_interruption {rest : Text} {o : List TokenShape} (h : Lexes rest o) :
    Lexes (interruption ++ rest) (interruptionShapes ++ o) := by
  have read : ∀ {c : Char} {s : Text} {k : TokenKind} {n : Nat},
      Lexeme.read c s = .ok (k, n) → Lexeme.Reads c s k n := Lexeme.read_eq_ok_iff.mp
  have bars : ∀ {t : Text} {o : List TokenShape}, Lexes t o →
      Lexes ('|' :: (['|'] ++ t)) ((.symbol, "||".toList) :: o) :=
    lexes_word (by decide) (read rfl)
  have closing := lexes_word (c := ')') (s := []) (by decide) (read rfl) (bars h)
  have number := lexes_word (c := '1') (s := ['0']) (by decide) (read rfl) closing
  have opening := lexes_word (c := '(') (s := []) (by decide) (read rfl) number
  have name := lexes_word (c := 'C') (s := ['H', 'R']) (by decide) (read rfl) opening
  exact bars name

/-- The tokens of a literal: each piece is one, in its quotes. -/
def pieceShapes (ps : List Text) : List TokenShape :=
  interruptionShapes.intercalate (ps.map fun p => [(.string, Doubled.enclose '\'' p)])

theorem lexes_enclose {p rest : Text} {o : List TokenShape} (other : ∀ d ∈ rest.head?, d ≠ '\'')
    (h : Lexes rest o) : Lexes ('\'' :: (Doubled.encode '\'' p ++ '\'' :: rest))
      ((.string, Doubled.enclose '\'' p) :: o) := by
  have closed : Lexeme.quotedLength '\'' (fun _ => true) (Doubled.encode '\'' p ++ '\'' :: rest) =
      some ((Doubled.encode '\'' p).length + 1) :=
    Lexeme.quotedLength_encode (fun _ _ _ => rfl) other
  have text : Doubled.encode '\'' p ++ '\'' :: rest = (Doubled.encode '\'' p ++ ['\'']) ++ rest := by
    simp
  rw [text] at closed ⊢
  exact lexes_word (by decide) (.string (by simpa using closed)) h

theorem lexes_ofPieces {ps : List Text} (some : ps ≠ []) :
    Lexes (ofPieces ps) (pieceShapes ps) := by
  induction ps with
  | nil => exact absurd rfl some
  | cons p ps ih =>
    cases ps with
    | nil => exact lexes_enclose (by simp) .nil
    | cons q ps =>
      have behind := lexes_interruption (ih (by simp))
      rw [ofPieces_cons_cons]
      refine lexes_enclose (fun d head => ?_) behind
      rw [head?_interruption] at head
      obtain rfl := Option.some.inj head
      decide

/-- The literal of a text has no line end, is read as the text, and splits into one string token for
each line of the text, with the tokens of a joined line end between neighbours. No character of the
text gets into any other token. -/
theorem tokenize_encode (s : Text) :
    '\n' ∉ encode s ∧ decode (encode s) = some s ∧
    ∃ ts : List Token, (∀ limit, ts.length ≤ limit → tokenize limit (encode s) = .ok ts) ∧
      ts.map Token.shape =
        interruptionShapes.intercalate (s.lines.map fun l => [(.string, Doubled.enclose '\'' l)]) ∧
      s.lines.length = s.count '\n' + 1 ∧ Text.unlines s.lines = s := by
  refine ⟨inLine_encode s, decode_encode s, ?_⟩
  have lexes := lexes_ofPieces s.lines_ne_nil
  rw [← encode_eq] at lexes
  obtain ⟨ts, shapes, found⟩ := lexes.tokenize
  exact ⟨ts, found, shapes, length_lines s, s.unlines_lines⟩

end SqlCompose.TextLiteral
