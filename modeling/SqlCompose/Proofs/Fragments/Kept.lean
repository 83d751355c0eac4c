import SqlCompose.Proofs.Fragments.Places

/-! The long literals of a fragment in its normal form. A token of the fragment and the token with
the same number in the normal form have the same visible characters before them. A literal begins
and ends with a quote, which is visible, so its range is mapped to the range of the same literal. -/

namespace SqlCompose

open LexMode Fragment Text

theorem Respaced.visible_eq {m : LexMode} {s t : Text} (h : Respaced m s t) :
    visible t = visible s := by
  induction h with
  | nil => rfl
  | @char m c s t _ ih =>
    rw [← List.singleton_append, ← List.singleton_append (l := s), visible_append, visible_append,
      ih]
  | lineBreak _ old new _ ih =>
    rw [visible_append, visible_append, visible_of_blanks old.blanks, visible_of_blanks new.blanks,
      ih]
  | last _ old new => rw [visible_of_blanks old, visible_of_blanks new]

theorem scanAt_append_blanks {b : Text} (blanks : b.isAllBlank = true) (p : Place) (s : Text) :
    scanAt p (b ++ s) = scanAt (p.after b) s := by
  induction b generalizing p with
  | nil => rfl
  | cons c b ih =>
    simp only [Text.isAllBlank, List.all_cons, Bool.and_eq_true] at blanks
    rw [List.cons_append, scanAt_cons_of_isBlank blanks.1, ih blanks.2, Place.after_cons]

namespace Token

structure Behind (t : Token) (pre s : Text) : Prop where
  start : t.start = pre.byteSize
  text : pre ++ t.text <+: s

/-- A token of the text `s` and a token of the text `s'` that have the same shape, and the same
visible characters before them. -/
structure Matches (s s' : Text) (t u : Token) : Prop where
  shape : u.shape = t.shape
  place : ∃ pre pre' : Text, t.Behind pre s ∧ u.Behind pre' s' ∧ visible pre' = visible pre

namespace Matches

variable {s s' : Text} {t u : Token}

theorem kind (h : t.Matches s s' u) : u.kind = t.kind :=
  congrArg Prod.fst h.shape

theorem text_of_string (h : t.Matches s s' u) (isString : t.kind = .string) : u.text = t.text := by
  have words := congrArg Prod.snd h.shape
  simpa [Token.shape, TokenKind.shape, h.kind, isString] using words

theorem isLongLiteral (h : t.Matches s s' u) : u.isLongLiteral = t.isLongLiteral := by
  rw [Token.isLongLiteral, Token.isLongLiteral, h.kind]
  by_cases isString : t.kind = .string
  · rw [h.text_of_string isString]
  · rw [beq_eq_false_iff_ne.mpr isString, Bool.false_and, Bool.false_and]

end Matches

end Token

theorem Respaced.matches {s t : Text} {o : List TokenShape} (h : Respaced code s t)
    (lexes : Lexes s o) {front front' : Text} (same : visible front' = visible front) {p q : Place}
    (here : p.offset = front.byteSize) (there : q.offset = front'.byteSize) :
    List.Forall₂ (Token.Matches (front ++ s) (front' ++ t)) (scanAt p s).tokens
      (scanAt q t).tokens := by
  induction size : s.length using Nat.strongRecOn generalizing s t o front front' p q with
  | ind n ih =>
    -- behind texts with the same visible characters, the rest is shorter
    have behind : ∀ {w w' s t : Text} {o : List TokenShape}, s.length < n → Respaced code s t →
        Lexes s o → visible w' = visible w →
        List.Forall₂ (Token.Matches (front ++ (w ++ s)) (front' ++ (w' ++ t)))
          (scanAt (p.after w) s).tokens (scanAt (q.after w') t).tokens := by
      intro w w' s t o shorter rest lexes seen
      rw [← List.append_assoc, ← List.append_assoc]
      refine ih s.length shorter rest lexes ?_ ?_ ?_ rfl
      · rw [visible_append, visible_append, same, seen]
      · rw [Place.offset_after, here, byteSize_append]
      · rw [Place.offset_after, there, byteSize_append]
    cases h with
    | nil =>
      rw [scanAt, scanAt]
      exact .nil
    | @char _ c s t rest =>
      cases lexes with
      | blank blank lexes =>
        rw [LexMode.step, opening_of_isBlank blank] at rest
        rw [scanAt_cons_of_isBlank blank, scanAt_cons_of_isBlank blank]
        have same : visible [c] = visible [c] := rfl
        exact behind (by simp [← size]) rest lexes same
      | @token _ _ k i o visible' read lexes =>
        obtain ⟨i', read', shape, later⟩ := rest.reads read
        have split : c :: s = (c :: s.take i) ++ s.drop i := by simp
        have split' : c :: t = (c :: t.take i') ++ t.drop i' := by simp
        have seen : visible (c :: t.take i') = visible (c :: s.take i) := by
          have whole := (Respaced.char rest).visible_eq
          rw [split, split', visible_append, visible_append, later.visible_eq] at whole
          exact List.append_cancel_right whole
        have shorter : (s.drop i).length < n := by
          rw [← size, List.length_drop, List.length_cons]
          omega
        rw [scanAt_cons_of_reads visible' read, scanAt_cons_of_reads visible' read']
        have tail := behind shorter later lexes seen
        rw [← split, ← split'] at tail
        refine .cons ⟨shape, front, front', ⟨here, ?_⟩, ⟨there, ?_⟩, same⟩ tail
        · exact ⟨s.drop i, by simp⟩
        · exact ⟨t.drop i', by simp⟩
    | @lineBreak _ b b' s t _ old new rest =>
      rw [Lexes.append_blanks_iff old.blanks] at lexes
      rw [scanAt_append_blanks old.blanks, scanAt_append_blanks new.blanks]
      obtain ⟨c, b, rfl, -⟩ := old.exists_cons
      refine behind ?_ rest lexes ?_
      · simp only [← size, List.length_append, List.length_cons]
        omega
      · rw [visible_of_blanks old.blanks, visible_of_blanks new.blanks]
    | last _ old new =>
      rw [← List.append_nil s, ← List.append_nil t, scanAt_append_blanks old,
        scanAt_append_blanks new, scanAt, scanAt]
      exact .nil

theorem Lexeme.getLast?_of_quotedLength {q : Char} {allowed : Char → Bool} {s : Text} {n : Nat}
    (h : quotedLength q allowed s = some n) : (s.take n).getLast? = some q := by
  fun_induction quotedLength q allowed s generalizing n with
  | case1 => cases h
  | case2 =>
    obtain rfl := Option.some.inj h
    rfl
  | case3 rest ih =>
    obtain ⟨k, later, rfl⟩ := Option.map_eq_some_iff.mp h
    simp [List.getLast?_cons, ih later]
  | case4 =>
    obtain rfl := Option.some.inj h
    rfl
  | case5 c s _ _ ih =>
    obtain ⟨k, later, rfl⟩ := Option.map_eq_some_iff.mp h
    simp [List.getLast?_cons, ih later]
  | case6 => cases h

theorem Lexeme.quotes_of_reads {c : Char} {s : Text} {n : Nat} (h : Reads c s .string n) :
    c = '\'' ∧ ∃ w : Text, c :: s.take n = w ++ ['\''] := by
  cases h with
  | string closed =>
    obtain ⟨w, split⟩ := List.getLast?_eq_some_iff.mp (getLast?_of_quotedLength closed)
    exact ⟨rfl, '\'' :: w, by rw [split]; rfl⟩
  | plain _ found =>
    unfold plain at found
    split_ifs at found <;> simp at found

theorem quotes_of_scanAt {p : Place} {s : Text} (ok : (scanAt p s).fault = none) :
    ∀ t ∈ (scanAt p s).tokens, t.kind = .string →
      (∃ w : Text, t.text = '\'' :: w) ∧ ∃ w : Text, t.text = w ++ ['\''] :=
  scanAt_induction
    (motive := fun _ _ ts => ∀ t ∈ ts, t.kind = .string →
      (∃ w : Text, t.text = '\'' :: w) ∧ ∃ w : Text, t.text = w ++ ['\''])
    (fun _ => by simp) (fun _ _ _ _ _ behind => behind)
    (fun p c s k n ts _ read behind t mem isString => by
      rcases List.mem_cons.mp mem with rfl | later
      · obtain rfl : k = .string := isString
        obtain ⟨rfl, last⟩ := Lexeme.quotes_of_reads read
        exact ⟨⟨_, rfl⟩, last⟩
      · exact behind t later isString) ok

theorem Token.Matches.mapRange {ranges : List ByteRange} {sql : Text} {t u : Token}
    (h : t.Matches sql (normalizeKeeping ranges sql).1 u) (isString : t.kind = .string)
    (quotes : (∃ w : Text, t.text = '\'' :: w) ∧ ∃ w : Text, t.text = w ++ ['\'']) :
    Fragment.mapRange (normalLines ranges sql) ⟨t.start, t.stop⟩ = ⟨u.start, u.stop⟩ := by
  have text := h.text_of_string isString
  obtain ⟨-, pre, pre', ⟨start, post, split⟩, ⟨start', post', split'⟩, same⟩ := h
  obtain ⟨⟨w, opens⟩, w', closes⟩ := quotes
  have quote : isBlank '\'' = false := by decide
  have size : '\''.utf8Size = 1 := by decide
  rw [text] at split'
  have opening : ∀ u v : Text, u ++ t.text ++ v = u ++ '\'' :: (w ++ v) := by
    intro u v
    rw [opens, List.append_assoc, List.cons_append]
  have closing : ∀ u v : Text, u ++ t.text ++ v = (u ++ w') ++ '\'' :: v := by
    intro u v
    rw [closes]
    simp
  have seen : visible (pre' ++ w') = visible (pre ++ w') := by
    rw [visible_append, visible_append, same]
  have first := mapOffset_normal ranges quote quote (split.symm.trans (opening pre post))
    (split'.symm.trans (opening pre' post')) same (Nat.zero_le _)
  have last := mapOffset_normal ranges quote quote (split.symm.trans (closing pre post))
    (split'.symm.trans (closing pre' post')) seen (Nat.le_refl _)
  have stop : ∀ v : Text, Text.byteSize (v ++ w') + 1 = v.byteSize + t.text.byteSize := by
    intro v
    rw [closes, byteSize_append, byteSize_append, byteSize_cons, size, byteSize_nil]
    omega
  rw [size, stop, stop, ← start, ← start'] at last
  rw [Nat.add_zero, Nat.add_zero, ← start, ← start'] at first
  rw [Fragment.mapRange, first, Token.stop, Token.stop, text]
  exact congrArg (ByteRange.mk u.start) last

theorem longLiterals_cons (t : Token) (ts : List Token) :
    longLiterals (t :: ts) =
      if t.isLongLiteral then ⟨t.start, t.stop⟩ :: longLiterals ts else longLiterals ts := by
  rw [longLiterals, List.filter_cons]
  split <;> rfl

theorem map_mapRange_longLiterals {ranges : List ByteRange} {sql : Text} {ts us : List Token}
    (h : List.Forall₂ (Token.Matches sql (normalizeKeeping ranges sql).1) ts us)
    (quotes : ∀ t ∈ ts, t.kind = .string →
      (∃ w : Text, t.text = '\'' :: w) ∧ ∃ w : Text, t.text = w ++ ['\'']) :
    (longLiterals ts).map (mapRange (normalLines ranges sql)) = longLiterals us := by
  induction h with
  | nil => rfl
  | @cons t u ts us here _ ih =>
    have later := ih fun v mem => quotes v (List.mem_cons_of_mem t mem)
    rw [longLiterals_cons, longLiterals_cons, here.isLongLiteral]
    split
    · next long =>
      have isString : t.kind = .string := by
        simpa using ((Bool.and_eq_true _ _).mp long).1
      rw [List.map_cons, here.mapRange isString (quotes t (by simp) isString), later]
    · exact later

theorem kept_normal {limit : Nat} {sql : Text} {ts us : List Token}
    (h : tokenize limit sql = .ok ts)
    (again : tokenize limit (normalizeKeeping (longLiterals ts) sql).1 = .ok us) :
    (normalizeKeeping (longLiterals ts) sql).2 = longLiterals us := by
  obtain ⟨lead, s, split, blanks, respaced⟩ := exists_respaced_normal h
  have lexes := lexes_of_tokenize h
  obtain ⟨ok, rfl, -⟩ := tokenize_eq_ok_iff.mp h
  obtain ⟨-, rfl, -⟩ := tokenize_eq_ok_iff.mp again
  rw [split, Lexes.append_blanks_iff blanks] at lexes
  have same : visible [] = visible lead := by rw [visible_of_blanks blanks, visible_nil]
  have here : (Place.start.after lead).offset = lead.byteSize := by simp [Place.start]
  have there : Place.start.offset = Text.byteSize [] := rfl
  have matched := respaced.matches lexes same here there
  rw [← scanAt_append_blanks blanks, ← split, List.nil_append] at matched
  exact map_mapRange_longLiterals matched (quotes_of_scanAt ok)

end SqlCompose
