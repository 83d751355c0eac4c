import SqlCompose.Proofs.Lexing.Speaks
import SqlCompose.Proofs.Pages.RawItems

/-! What a line begins with. A text, a placeholder or another builder that says something says it
in the line it is written in, whatever is written behind it. A fragment may be made of comments and
say nothing, but then what is written softly behind it does. -/

namespace SqlCompose

theorem Moved.inLine {xs ys : List Cell} (h : Moved xs ys)
    (inLine : ∀ cell ∈ xs.head?, cell ≠ .char '\n') : ∀ cell ∈ ys.head?, cell ≠ .char '\n' := by
  cases h with
  | nil => exact inLine
  | cell other same _ =>
    rintro copy head rfl
    obtain rfl := Option.some.inj head
    exact other (Cell.unnumbered_eq_char_iff.mp same.symm)
  | lineEnd n last _ => exact absurd rfl (inLine _ rfl)

theorem Moved.last {xs ys : List Cell} (h : Moved xs ys)
    (last : ∀ cell ∈ xs.getLast?, cell ≠ .char '\n') : ∀ cell ∈ ys.getLast?, cell ≠ .char '\n' := by
  rintro cell ends rfl
  have same := h.getLast?
  rw [Option.mem_def.mp ends] at same
  obtain ⟨other, found, number⟩ := Option.map_eq_some_iff.mp same.symm
  exact last other found (Cell.unnumbered_eq_char_iff.mp number)

theorem RowSpeaks.moved {xs ys : List Cell} (h : RowSpeaks xs) (moved : Moved xs ys) :
    RowSpeaks ys :=
  fun s laid => h s (moved.relaid laid)

theorem RowPasses.moved {xs ys : List Cell} {f : Follow} (h : RowPasses xs f)
    (moved : Moved xs ys) : RowPasses ys f :=
  fun s laid => h s (moved.relaid laid)

theorem RowLexes.moved {xs ys : List Cell} {o : List TokenShape} (h : RowLexes xs o)
    (moved : Moved xs ys) : RowLexes ys o :=
  fun s laid => h s (moved.relaid laid)

theorem RowSpeaks.ne_nil {xs : List Cell} (h : RowSpeaks xs) : xs ≠ [] := by
  rintro rfl
  exact (h [] .nil).ne_nil rfl

namespace Builder

variable {b c d arg : Builder} {xs own : List Cell} {s : Text}

/-- A line begins, no line end is owed, and all lines but the first one start with spaces. -/
structure Starting (b : Builder) : Prop extends b.Fresh where
  later : b.LaterSpaced

theorem starting_empty (style : PlaceholderStyle) : (empty style).Starting :=
  ⟨⟨rfl, rfl⟩, fun _ none => absurd none List.not_mem_nil⟩

theorem Starting.pushIndent (h : b.Starting) (lead : Lead) (spaced : ∃ n, lead.text false = Text.spaces n) :
    (b.pushIndent lead).Starting ∧ (b.pushIndent lead).lead = b.lead ++ lead.text true := by
  refine ⟨⟨⟨h.start, h.settled⟩, fun l mem => ?_⟩, ?_⟩
  · rcases List.mem_cons.mp mem with rfl | outer
    · exact spaced
    · exact h.later l outer
  · simp [Builder.lead, Builder.pushIndent, h.start]

theorem Starting.front_eq (h : b.Starting) : b.front = b.lead := by
  simp [front, h.start, h.settled]

structure Adds (b c : Builder) (own : List Cell) : Prop where
  more : b.Extends c
  begun : c.indents = b.indents.map IndentEntry.begun
  cells : c.cells.toList = b.cells.toList ++ (b.lead.map Cell.char ++ own)
  some : own ≠ []
  inLine : ∀ cell ∈ own.head?, cell ≠ .char '\n'

theorem Adds.extends (h : b.Adds c own) (more : c.Extends d) : ∃ rest, b.Adds d (own ++ rest) := by
  obtain ⟨rest, split⟩ := more.text
  refine ⟨rest, h.more.trans more, ?_, ?_, by simp [h.some], ?_⟩
  · have twice : IndentEntry.begun ∘ IndentEntry.begun = IndentEntry.begun := rfl
    rcases more.indents with same | first
    · rw [same, h.begun]
    · rw [first, h.begun, List.map_map, twice]
  · rw [← split, h.cells]
    simp
  · rw [List.head?_append_of_ne_nil _ h.some]
    exact h.inLine

theorem Adds.indented (h : b.Adds c own) (starting : b.Starting) : c.Indented :=
  starting.later.indented h.more h.begun

theorem Adds.withBinding (h : b.Adds c own) (count : Nat) (l : Ledger) :
    b.Adds (c.withBinding count l) own :=
  ⟨h.more.withBinding count l, h.begun, h.cells, h.some, h.inLine⟩

theorem Starting.adds_copies (h : b.Starting) (offset : Nat) (some : xs ≠ [])
    (inLine : ∀ cell ∈ xs.head?, cell ≠ .char '\n') :
    ∃ ys, b.Adds (xs.foldl (putCopy offset) b) ys ∧ Moved xs ys := by
  obtain ⟨ys, split, moved⟩ := h.later.copies h.start offset inLine
  cases xs with
  | nil => exact absurd rfl some
  | cons cell xs =>
    have other := inLine cell rfl
    have first : (putCopy offset b cell).indents = b.indents.map IndentEntry.begun := by
      obtain ⟨copy, wordTail, put⟩ := exists_putCopy_eq_putCell offset b.style other
      rw [put b rfl]
      simp only [Builder.putCell, Builder.settleBreak, h.start, Bool.not_true, Bool.and_false,
        Bool.false_eq_true, if_false, Builder.startLine, if_true]
      rfl
    have rest := (Extends.refl (putCopy offset b cell)).copies offset xs
    refine ⟨ys, ⟨(Extends.refl b).copies offset _, ?_, ?_, mt moved.eq_nil_iff.mp (by simp),
      moved.inLine inLine⟩, moved⟩
    · have twice : IndentEntry.begun ∘ IndentEntry.begun = IndentEntry.begun := rfl
      rcases rest.indents with same | again
      · exact same.trans first
      · rw [List.foldl_cons, again, first, List.map_map, twice]
    · rw [split, frontOf, if_neg other, h.front_eq]

def Says (b c : Builder) : Prop :=
  ∃ own, b.Adds c own ∧ RowSpeaks own

theorem Says.extends (h : b.Says c) (more : c.Extends d) : b.Says d := by
  obtain ⟨own, adds, speaks⟩ := h
  obtain ⟨rest, adds⟩ := adds.extends more
  exact ⟨_, adds, speaks.append rest⟩

theorem Says.withBinding (h : b.Says c) (count : Nat) (l : Ledger) :
    b.Says (c.withBinding count l) := by
  obtain ⟨own, adds, speaks⟩ := h
  exact ⟨own, adds.withBinding count l, speaks⟩

theorem Starting.says_copies (h : b.Starting) (offset : Nat) (speaks : RowSpeaks xs)
    (inLine : ∀ cell ∈ xs.head?, cell ≠ .char '\n') :
    b.Says (xs.foldl (putCopy offset) b) := by
  obtain ⟨ys, adds, moved⟩ := h.adds_copies offset speaks.ne_nil inLine
  exact ⟨ys, adds, speaks.moved moved⟩

theorem inLine_of_isVoice (voice : isVoice s = true) :
    ∀ cell ∈ (s.map Cell.char).head?, cell ≠ .char '\n' := by
  cases s with
  | nil => cases voice
  | cons c s =>
    rintro cell head rfl
    obtain rfl := Cell.char.inj (Option.some.inj head)
    cases voice

theorem Starting.says_append (h : b.Starting) (voice : isVoice s = true) : b.Says (b.append s) := by
  rw [append_eq_copies]
  exact h.says_copies 0 (rowSpeaks_of_isVoice voice) (inLine_of_isVoice voice)

theorem Starting.says_appendName (h : b.Starting) (voice : isVoice s = true) :
    b.Says (b.appendName s) := by
  have same : b.appendName s = b.append s := by
    simp [appendName, settleBreak_of_settled h.settled, h.start]
  rw [same]
  exact h.says_append voice

theorem Starting.says_appendBind {v : BindVariable} (h : b.Starting)
    (g : b.appendBind v = (c, .ok ())) : b.Says c := by
  obtain ⟨l, -, rfl⟩ := appendBind_eq_ok_iff_record.mp g
  have speaks : RowSpeaks [.marker (b.bindCount + 1)] := by
    intro s laid
    cases laid with
    | cell _ _ => exact .here (by decide) rfl
  have copied : b.Says ([Cell.marker (b.bindCount + 1)].foldl (putCopy 0) b) :=
    h.says_copies 0 speaks (by simp)
  exact copied.withBinding _ _

/-- What has been written is complete, perhaps with a line end that is owed. -/
inductive Hushed (b c : Builder) : Prop
  | nothing (more : b.Extends c) (fresh : c.Fresh) (indents : c.indents = b.indents)
    (cells : c.cells.toList = b.cells.toList)
  | complete {own : List Cell} (adds : b.Adds c own) (passes : RowPasses own .soft)
  | owing {own : List Cell} (adds : b.Adds c own) (passes : RowPasses own .line)
    (pending : c.pendingBreak = true) (inLine : c.atLineStart = false)
    (last : ∀ cell ∈ own.getLast?, cell ≠ .char '\n')

theorem Says.hushed (h : b.Says c) : b.Hushed c := by
  obtain ⟨own, adds, speaks⟩ := h
  exact .complete adds speaks.passes

theorem rowSpeaks_blanks (blanks : s.isAllBlank = true) (h : RowSpeaks xs) :
    RowSpeaks (s.map Cell.char ++ xs) := by
  have behind : ∀ w t : Text, w.isAllBlank = true → Speaks t → Speaks (w ++ t) := by
    intro w t blank speaks
    induction w with
    | nil => exact speaks
    | cons c w ih =>
      obtain ⟨first, others⟩ := (Bool.and_eq_true _ _).mp blank
      exact .blank first (ih others)
  induction s with
  | nil => exact h
  | cons c s ih =>
    obtain ⟨first, others⟩ := (Bool.and_eq_true _ _).mp blanks
    intro t laid
    cases laid with
    | cell _ rest => exact .blank first (ih others _ rest)
    | lineEnd n rest =>
      exact .blank (by decide) (behind _ _ (isAllBlank_spaces n) (ih others _ rest))

theorem Hushed.append (h : b.Hushed c) (starting : b.Starting) (voice : isSoftVoice s = true) :
    b.Says (c.append s) := by
  obtain ⟨soft, voice⟩ := (Bool.and_eq_true _ _).mp voice
  -- behind a row, the text stands in the line or on a new one
  have behind : ∀ {own : List Cell} {f : Follow}, b.Adds c own → RowPasses own f →
      (∀ t : Text, t.head? = (c.front ++ s).head? → f.Admits t) → b.Says (c.append s) := by
    intro own f adds passes fits
    have indented := adds.indented starting
    obtain ⟨ys, split, moved⟩ := indented.copies 0 (s.map Cell.char)
    have speaks := (rowSpeaks_of_isVoice voice).moved moved
    have front : c.frontOf (s.map Cell.char) = c.front := by
      cases s with
      | nil => cases voice
      | cons x s => rw [List.map_cons, frontOf, if_neg (inLine_of_isVoice voice _ rfl)]
    have more : c.Extends (c.append s) := (Extends.refl c).append s
    obtain ⟨rest, whole⟩ := adds.extends more
    have same : rest = c.front.map Cell.char ++ ys := by
      rw [← append_eq_copies, front] at split
      have cells := whole.cells
      rw [split, adds.cells] at cells
      simpa using cells.symm
    refine ⟨_, whole, same ▸ passes.append (rowSpeaks_blanks indented.isAllBlank_front speaks) ?_⟩
    intro t laid
    refine fits t ?_
    obtain ⟨u, v, rfl, first, second⟩ := laid.exists_append
    rw [List.head?_append, List.head?_append, first.head?, (moved.relaid second).head?]
  cases h with
  | nothing more fresh indents cells =>
    have again : c.Starting := ⟨fresh, starting.later.extends more⟩
    obtain ⟨own, adds, speaks⟩ := again.says_append voice
    refine ⟨own, ⟨more.trans adds.more, ?_, ?_, adds.some, adds.inLine⟩, speaks⟩
    · rw [adds.begun, indents]
    · rw [adds.cells, cells, lead, indents, ← lead]
  | complete adds passes =>
    refine behind adds passes fun t head d first => ?_
    have blank := (adds.indented starting).isAllBlank_front
    rw [head] at first
    cases front : c.front with
    | nil =>
      rw [front, List.nil_append] at first
      rw [Option.mem_def.mp first] at soft
      exact soft
    | cons x front' =>
      rw [front] at first blank
      obtain rfl := Option.some.inj first
      rw [isSoft, (Bool.and_eq_true _ _).mp blank |>.1]
      rfl
  | owing adds passes pending inLine last =>
    refine behind adds passes fun t head d first => ?_
    have front : c.front = '\n' :: c.lead := by simp [front, pending, inLine]
    rw [head, front] at first
    exact (Option.some.inj first).symm

theorem Adds.popIndent {lead : Lead} (h : (b.pushIndent lead).Adds c own)
    (same : (b.pushIndent lead).lead = b.lead) : b.Adds c.popIndent own := by
  refine ⟨h.more.popIndent, ?_, ?_, h.some, h.inLine⟩
  · rw [Builder.popIndent, h.begun]
    rfl
  · rw [← same]
    exact h.cells

theorem Adds.breakBeforeNext (h : b.Adds c own) : b.Adds c.breakBeforeNext own := by
  have same : c.breakBeforeNext.indents = c.indents ∧ c.breakBeforeNext.cells = c.cells := by
    rw [Builder.breakBeforeNext]
    split <;> exact ⟨rfl, rfl⟩
  exact ⟨h.more.breakBeforeNext, same.1.trans h.begun, same.2 ▸ h.cells, h.some, h.inLine⟩

theorem Adds.cells_of_empty {style : PlaceholderStyle} (h : (empty style).Adds arg own) :
    arg.cells.toList = own :=
  h.cells

theorem Starting.adds_embed {style : PlaceholderStyle} (h : b.Starting)
    (inner : (empty style).Adds arg own) (e : b.embed arg = (d, .ok ())) :
    ∃ ys, b.Adds d ys ∧ Moved own ys := by
  obtain ⟨l, -, rfl⟩ := embed_eq_ok_iff.mp e
  obtain ⟨ys, adds, moved⟩ := h.adds_copies b.bindCount inner.some inner.inLine
  rw [← inner.cells_of_empty] at adds
  refine ⟨ys, Adds.withBinding ?_ _ _, moved⟩
  rw [copyText]
  split
  · exact adds.breakBeforeNext
  · exact adds

theorem Starting.says_embed {style : PlaceholderStyle} (h : b.Starting)
    (inner : (empty style).Says arg) (e : b.embed arg = (d, .ok ())) : b.Says d := by
  obtain ⟨own, adds, speaks⟩ := inner
  obtain ⟨ys, adds, moved⟩ := h.adds_embed adds e
  exact ⟨ys, adds, speaks.moved moved⟩

theorem Starting.hushed_embed {style : PlaceholderStyle} (h : b.Starting)
    (inner : (empty style).Hushed arg) (e : b.embed arg = (d, .ok ())) : b.Hushed d := by
  cases inner with
  | nothing _ fresh _ cells =>
    obtain ⟨l, -, rfl⟩ := embed_eq_ok_iff.mp e
    have none : arg.cells.toList = [] := cells
    have same : b.copyText arg = b := by
      rw [copyText, none, fresh.settled]
      rfl
    rw [same]
    exact .nothing ((Extends.refl b).withBinding _ _) ⟨h.start, h.settled⟩ rfl rfl
  | complete adds passes =>
    obtain ⟨ys, adds, moved⟩ := h.adds_embed adds e
    exact .complete adds (passes.moved moved)
  | owing inner passes pending _ last =>
    obtain ⟨ys, adds, moved⟩ := h.adds_embed inner e
    obtain ⟨l, -, rfl⟩ := embed_eq_ok_iff.mp e
    have cells := inner.cells_of_empty
    obtain ⟨cell, ends⟩ := Option.isSome_iff_exists.mp (List.getLast?_isSome.mpr inner.some)
    have inLine : (arg.cells.toList.foldl (putCopy b.bindCount) b).atLineStart = false := by
      rw [atLineStart_copies, cells, startsLine_of_getLast? ends]
      simpa using last cell ends
    have owed : b.copyText arg =
        { arg.cells.toList.foldl (putCopy b.bindCount) b with pendingBreak := true } := by
      rw [copyText, if_pos pending, breakBeforeNext, if_neg (Bool.eq_false_iff.mp inLine)]
    refine .owing adds (passes.moved moved) ?_ ?_ (moved.last last)
    · rw [owed]
      rfl
    · rw [owed]
      exact inLine

end Builder

open Builder LexMode

/-- Whether a fragment has no token but comments. -/
def RawSql.isSilent (raw : RawSql) : Bool :=
  (scan raw.body.text).tokens.all fun t => t.kind = .comment

namespace RawSql

variable {raw : RawSql} {row : List Cell} {scope : Scope} {b b' : Builder}

theorem rowLexes (raw : RawSql)
    (same : row.map Cell.unnumbered = raw.body.cells.map Cell.unnumbered) :
    RowLexes row ((scan raw.body.text).tokens.map Token.shape) ∧
      ∀ t, Relaid row t → code.run t = code.run (codeText .question raw.body.cells) := by
  obtain ⟨limit, sql, isRead⟩ := raw.isRead
  obtain ⟨tidy, -, -⟩ := RawText.tidy_read isRead
  obtain ⟨text, ok, body⟩ := RawText.exists_scan_of_read isRead
  have written : codeText .question raw.body.cells = text := by
    rw [body]
    exact ((cutsTidily_scan ok).here 0).1
  have scanned : raw.body.text = text := by rw [body]; rfl
  have respaced : ∀ t, Relaid row t → Respaced code (codeText .question raw.body.cells) t ∧
      code.run t = code.run (codeText .question raw.body.cells) := by
    intro t laid
    rw [← relaid_unnumbered_iff, same, relaid_unnumbered_iff] at laid
    exact laid.respaced tidy
  refine ⟨fun t laid => ?_, fun t laid => (respaced t laid).2⟩
  have lexes : Lexes (codeText .question raw.body.cells)
      ((scan raw.body.text).tokens.map Token.shape) := by
    rw [written, scanned]
    exact lexes_of_scanAt ok
  exact lexes.respaced (respaced t laid).1

theorem hushed_write (h : b.Starting) (g : raw.write scope b = .ok b') :
    b.Hushed b' ∧ ∃ own, b'.cells.toList = b.cells.toList ++
        ((if own = [] then [] else b.lead).map Cell.char ++ own) ∧
      RowLexes own ((scan raw.body.text).tokens.map Token.shape) := by
  have more := RawSql.write_extends g
  obtain ⟨limit, sql, isRead⟩ := raw.isRead
  obtain ⟨-, -, endsInComment⟩ := RawText.tidy_read isRead
  obtain ⟨-, -, -, visible, -⟩ := RawText.tokens_read isRead
  obtain ⟨c, parts, rfl⟩ := exists_writeAll_of_write g
  obtain ⟨row, count, l, same, rfl⟩ := exists_copies_of_writeAll raw.lt_length_of_bind parts
  obtain ⟨lexes, mode⟩ := raw.rowLexes same
  obtain ⟨pushed, lead⟩ := h.pushIndent (wrapLead 0) ⟨1, rfl⟩
  have lead := lead.trans (List.append_nil b.lead)
  by_cases none : row = []
  · subst none
    have plain : ((b.pushIndent (wrapLead 0)).withBinding count l).popIndent =
        b.withBinding count l := rfl
    have start : (b.withBinding count l).breakBeforeNext = b.withBinding count l :=
      if_pos h.start
    rw [List.foldl_nil, plain, start, ite_self] at more ⊢
    exact ⟨.nothing more ⟨h.start, h.settled⟩ rfl rfl, [], by simp [withBinding], lexes⟩
  · have inLine := inLine_of_unnumbered same visible
    obtain ⟨ys, adds, moved⟩ := pushed.adds_copies 0 none inLine
    have adds := (adds.withBinding count l).popIndent lead
    have place := atLineStart_copies 0 (b.pushIndent (wrapLead 0)) row
    generalize row.foldl (putCopy 0) (b.pushIndent (wrapLead 0)) = c at adds place ⊢
    have both : b.Adds (if raw.body.endsInLineComment then
        (c.withBinding count l).popIndent.breakBeforeNext else (c.withBinding count l).popIndent)
        ys := by
      split
      · exact adds.breakBeforeNext
      · exact adds
    refine ⟨?_, ys, ?_, lexes.moved moved⟩
    · by_cases comment : code.run (codeText .question row) = .lineComment
      · obtain ⟨last, ends, visible⟩ := exists_getLast?_of_lineComment comment
        rw [startsLine_of_getLast? ends, decide_eq_false visible] at place
        have whole := (mode _ (relaid_codeText row)).symm.trans comment
        have owed : (c.withBinding count l).popIndent.breakBeforeNext =
            { (c.withBinding count l).popIndent with pendingBreak := true } :=
          if_neg (Bool.eq_false_iff.mp place)
        rw [if_pos (endsInComment whole)] at both ⊢
        refine .owing both (lexes.passes_line.moved moved) (by rw [owed]) ?_ (moved.last ?_)
        · rw [owed]
          exact place
        · rintro cell found rfl
          exact visible (Option.some.inj (ends.symm.trans found))
      · refine .complete both (RowPasses.moved (lexes.passes fun t laid => ?_) moved)
        rwa [mode t laid, ← mode _ (relaid_codeText row)]
    · rw [both.cells, if_neg both.some]

end RawSql

end SqlCompose
