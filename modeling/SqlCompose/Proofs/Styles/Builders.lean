import SqlCompose.Proofs.Binding

/-! Builders in two styles of placeholders. A dollar sign with a number ends in a word and a
question mark does not, so behind a placeholder two builders that hold the same would put an
identifier differently. Behind anything else they agree. -/

namespace SqlCompose

inductive Except.Related {ε α β : Type} (R : α → β → Prop) : Except ε α → Except ε β → Prop
  | error (e : ε) : Related R (.error e) (.error e)
  | ok {a : α} {b : β} (related : R a b) : Related R (.ok a) (.ok b)

section Results

variable {ε α β α' β' : Type} {R : α → β → Prop} {S : α' → β' → Prop}
  {x : Except ε α} {y : Except ε β}

theorem Except.Related.bind {f : α → Except ε α'} {g : β → Except ε β'}
    (h : Except.Related R x y) (next : ∀ a b, R a b → Except.Related S (f a) (g b)) :
    Except.Related S (x >>= f) (y >>= g) := by
  cases h with
  | error e => exact .error e
  | ok related => exact next _ _ related

theorem Except.related_self {R : α → α → Prop} (refl : ∀ a, R a a) (x : Except ε α) :
    Except.Related R x x := by
  cases x with
  | error e => exact .error e
  | ok a => exact .ok (refl a)

end Results

namespace Builder

def restyled (b : Builder) (style : PlaceholderStyle) (wordTail : Bool) : Builder :=
  { b with style, wordTail }

/-- `c` holds what `b` holds, in another style. The two may differ in whether a word has just
ended. -/
def Alike (style : PlaceholderStyle) (b c : Builder) : Prop :=
  ∃ wordTail, c = b.restyled style wordTail

/-- `c` holds what `b` holds, in another style, and an identifier can be written to both. -/
def Agrees (style : PlaceholderStyle) (b c : Builder) : Prop :=
  c = b.restyled style b.wordTail

variable {style : PlaceholderStyle} {b c other other' : Builder} {s : Text}

theorem Agrees.alike (h : b.Agrees style c) : b.Alike style c :=
  ⟨_, h⟩

theorem Alike.style_eq (h : b.Alike style c) : c.style = style := by
  obtain ⟨wordTail, rfl⟩ := h
  rfl

theorem agrees_empty (own style : PlaceholderStyle) : (empty own).Agrees style (empty style) :=
  rfl

theorem Alike.endLine (h : b.Alike style c) : b.endLine.Agrees style c.endLine := by
  obtain ⟨wordTail, rfl⟩ := h
  rfl

theorem settleBreak_restyled (wordTail : Bool) :
    (b.restyled style wordTail).settleBreak =
      b.settleBreak.restyled style (if b.pendingBreak && !b.atLineStart then false else wordTail) := by
  cases pending : b.pendingBreak <;> cases start : b.atLineStart <;>
    simp [settleBreak, restyled, endLine, pending, start]

theorem Alike.settleBreak (h : b.Alike style c) : b.settleBreak.Alike style c.settleBreak := by
  obtain ⟨wordTail, rfl⟩ := h
  exact ⟨_, settleBreak_restyled wordTail⟩

theorem Agrees.settleBreak (h : b.Agrees style c) : b.settleBreak.Agrees style c.settleBreak := by
  obtain rfl := h
  refine (settleBreak_restyled b.wordTail).trans ?_
  cases pending : b.pendingBreak <;> cases start : b.atLineStart <;>
    simp [Builder.settleBreak, restyled, Builder.endLine, pending, start]

theorem Alike.startLine (h : b.Alike style c) : b.startLine.Alike style c.startLine := by
  obtain ⟨wordTail, rfl⟩ := h
  refine ⟨wordTail, ?_⟩
  cases start : b.atLineStart <;> simp [Builder.startLine, restyled, lead, start]

theorem Alike.putCell (h : b.Alike style c) (cell : Cell) (wordTail wordTail' : Bool) :
    c.putCell cell wordTail' = (b.putCell cell wordTail).restyled style wordTail' := by
  obtain ⟨_, same⟩ := h.settleBreak.startLine
  simp only [Builder.putCell, same]
  rfl

theorem Alike.putChar (h : b.Alike style c) (char : Char) :
    (b.putChar char).Agrees style (c.putChar char) := by
  unfold Builder.putChar
  split
  · exact h.endLine
  · exact h.putCell _ _ _

theorem Alike.putKept (h : b.Alike style c) (char : Char) :
    (b.putKept char).Agrees style (c.putKept char) :=
  h.putCell _ _ _

theorem Alike.putMarker (h : b.Alike style c) (position : Nat) :
    (b.putMarker position).Alike style (c.putMarker position) :=
  ⟨_, h.putCell _ _ _⟩

theorem Agrees.append (h : b.Agrees style c) (s : Text) :
    (b.append s).Agrees style (c.append s) := by
  induction s generalizing b c with
  | nil => exact h
  | cons char s ih => exact ih (h.alike.putChar char)

theorem Alike.append (h : b.Alike style c) (s : Text) : (b.append s).Alike style (c.append s) := by
  cases s with
  | nil => exact h
  | cons char s => exact ((h.putChar char).append s).alike

theorem Alike.append_agrees (h : b.Alike style c) (some : s ≠ []) :
    (b.append s).Agrees style (c.append s) := by
  cases s with
  | nil => exact absurd rfl some
  | cons char s => exact (h.putChar char).append s

theorem Alike.appendKept (h : b.Alike style c) (s : Text) :
    (b.appendKept s).Alike style (c.appendKept s) := by
  induction s generalizing b c with
  | nil => exact h
  | cons char s ih => exact ih (h.putKept char).alike

theorem Agrees.appendName (h : b.Agrees style c) (s : Text) :
    (b.appendName s).Agrees style (c.appendName s) := by
  have settled := h.settleBreak
  simp only [Builder.appendName]
  generalize b.settleBreak = d, c.settleBreak = e at settled ⊢
  obtain rfl := settled
  have gap : ((d.restyled style d.wordTail).wordTail &&
      !(d.restyled style d.wordTail).atLineStart) = (d.wordTail && !d.atLineStart) := rfl
  rw [gap]
  split
  · exact Agrees.append rfl s
  · exact Agrees.append rfl s

theorem Alike.breakBeforeNext (h : b.Alike style c) :
    b.breakBeforeNext.Alike style c.breakBeforeNext := by
  obtain ⟨wordTail, rfl⟩ := h
  refine ⟨wordTail, ?_⟩
  cases start : b.atLineStart <;> simp [Builder.breakBeforeNext, restyled, start]

theorem Alike.pushIndent (h : b.Alike style c) (lead : Lead) :
    (b.pushIndent lead).Alike style (c.pushIndent lead) := by
  obtain ⟨wordTail, rfl⟩ := h
  exact ⟨wordTail, rfl⟩

theorem Agrees.pushIndent (h : b.Agrees style c) (lead : Lead) :
    (b.pushIndent lead).Agrees style (c.pushIndent lead) := by
  obtain rfl := h
  rfl

theorem Alike.popIndent (h : b.Alike style c) : b.popIndent.Alike style c.popIndent := by
  obtain ⟨wordTail, rfl⟩ := h
  exact ⟨wordTail, rfl⟩

theorem Agrees.popIndent (h : b.Agrees style c) : b.popIndent.Agrees style c.popIndent := by
  obtain rfl := h
  rfl

theorem Alike.putCopy (h : b.Alike style c) (offset : Nat) (cell : Cell) :
    (Builder.putCopy offset b cell).Alike style (Builder.putCopy offset c cell) := by
  cases cell with
  | char char => exact (h.putChar char).alike
  | kept char => exact (h.putKept char).alike
  | marker position => exact h.putMarker _

theorem Alike.copies (h : b.Alike style c) (offset : Nat) (cells : List Cell) :
    (cells.foldl (Builder.putCopy offset) b).Alike style
      (cells.foldl (Builder.putCopy offset) c) := by
  induction cells generalizing b c with
  | nil => exact h
  | cons cell cells ih => exact ih (h.putCopy offset cell)

theorem Alike.withCopy (h : b.Alike style c) (g : other.Alike style other') :
    (b.withCopy other).Alike style (c.withCopy other') := by
  obtain ⟨wordTail, rfl⟩ := g
  have copied := h.copies b.bindCount other.cells.toList
  have counted : Alike style
      { other.cells.toList.foldl (Builder.putCopy b.bindCount) b with
        bindCount := (other.cells.toList.foldl (Builder.putCopy b.bindCount) b).bindCount +
          other.bindCount }
      { other.cells.toList.foldl (Builder.putCopy b.bindCount) c with
        bindCount := (other.cells.toList.foldl (Builder.putCopy b.bindCount) c).bindCount +
          other.bindCount } := by
    obtain ⟨wordTail, same⟩ := copied
    exact ⟨wordTail, by rw [same]; rfl⟩
  have offset : c.bindCount = b.bindCount := by
    obtain ⟨wordTail, rfl⟩ := h
    rfl
  have pending : (other.restyled style wordTail).pendingBreak = other.pendingBreak := rfl
  simp only [Builder.withCopy, offset, pending]
  split
  · exact counted.breakBeforeNext
  · exact counted

end Builder

open Builder

variable {style : PlaceholderStyle} {b c other other' : Builder} {s : Text}

def Attempt.Related (style : PlaceholderStyle) (x y : Attempt) : Prop :=
  x.1.Alike style y.1 ∧ x.2 = y.2

theorem Attempt.Related.toExcept {x y : Attempt} (h : x.Related style y) :
    Except.Related (Alike style) x.toExcept y.toExcept := by
  obtain ⟨b, result⟩ := x
  obtain ⟨c, result'⟩ := y
  obtain ⟨alike, rfl⟩ : b.Alike style c ∧ result = result' := h
  cases result with
  | error e => exact .error e
  | ok done => exact .ok alike

namespace Builder

theorem Alike.addBind (h : b.Alike style c) (v : BindVariable) :
    (b.addBind v).Related style (c.addBind v) := by
  obtain ⟨wordTail, rfl⟩ := h
  simp only [Builder.addBind, restyled]
  cases Ledger.record v [b.bindCount + 1] b.ledger with
  | error e => exact ⟨⟨wordTail, rfl⟩, rfl⟩
  | ok l => exact ⟨⟨wordTail, rfl⟩, rfl⟩

theorem Alike.appendBind (h : b.Alike style c) (v : BindVariable) :
    (b.appendBind v).Related style (c.appendBind v) := by
  have added := h.settleBreak.startLine.addBind v
  simp only [Builder.appendBind]
  generalize b.settleBreak.startLine.addBind v = x, c.settleBreak.startLine.addBind v = y
    at added ⊢
  obtain ⟨d, result⟩ := x
  obtain ⟨e, result'⟩ := y
  obtain ⟨alike, rfl⟩ : d.Alike style e ∧ result = result' := added
  cases result with
  | error fault => exact ⟨alike, rfl⟩
  | ok done =>
    obtain ⟨wordTail, rfl⟩ := alike
    exact ⟨Alike.putMarker ⟨wordTail, rfl⟩ _, rfl⟩

theorem Alike.embed (h : b.Alike style c) (g : other.Alike style other') :
    (b.embed other).Related style (c.embed other') := by
  obtain ⟨wordTail, same⟩ := h.withCopy g
  obtain ⟨_, rfl⟩ := h
  obtain ⟨_, rfl⟩ := g
  rw [embed_eq, embed_eq, same]
  exact ⟨⟨wordTail, rfl⟩, rfl⟩

end Builder

end SqlCompose
