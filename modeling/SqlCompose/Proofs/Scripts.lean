import SqlCompose.Proofs.Embedding
import SqlCompose.Proofs.Uses

/-! Builders that scripts lead to. What every way of writing preserves, a script preserves. Every
expression is rendered by a script, and a script that starts on a new builder keeps its breaks
behind something written: a break is owed only in a line, and a line that has begun holds a
cell. -/

namespace SqlCompose

namespace Builder

variable {b c d s : Builder}

def RunsTo (b c : Builder) : Prop :=
  ∃ ops, BuilderOp.runAll b ops = (c, .ok ())

/-- The builder is made by a script on a new builder of the given style. -/
def IsScripted (style : PlaceholderStyle) (s : Builder) : Prop :=
  (empty style).RunsTo s

theorem RunsTo.refl (b : Builder) : b.RunsTo b :=
  ⟨[], rfl⟩

theorem RunsTo.trans (h : b.RunsTo c) (g : c.RunsTo d) : b.RunsTo d := by
  obtain ⟨ops, first⟩ := h
  obtain ⟨more, rest⟩ := g
  refine ⟨ops ++ more, ?_⟩
  induction ops generalizing b with
  | nil =>
    obtain rfl := (Prod.mk.inj first).1
    exact rest
  | cons op ops ih =>
    obtain ⟨e, here, later⟩ := BuilderOp.runAll_cons.mp first
    exact BuilderOp.runAll_cons.mpr ⟨e, here, ih later⟩

theorem runsTo_run (op : BuilderOp) (h : op.run b = (c, .ok ())) : b.RunsTo c :=
  ⟨[op], BuilderOp.runAll_cons.mpr ⟨c, h, rfl⟩⟩

theorem runsTo_append (b : Builder) (t : Text) : b.RunsTo (b.append t) :=
  runsTo_run (.append t) rfl

theorem runsTo_appendName (b : Builder) (t : Text) : b.RunsTo (b.appendName t) :=
  runsTo_run (.appendName t) rfl

theorem runsTo_appendBind {v : BindVariable} (h : b.appendBind v = (c, .ok ())) : b.RunsTo c :=
  runsTo_run (.appendBind v) h

theorem runsTo_embed {style : PlaceholderStyle} (h : b.embed s = (c, .ok ()))
    (scripted : s.IsScripted style) : b.RunsTo c := by
  obtain ⟨ops, inner⟩ := scripted
  exact runsTo_run (.embed (some style) ops) (BuilderOp.run_embed.mpr ⟨s, inner, h⟩)

theorem runsTo_wrapped {extra : Nat} (h : (b.pushIndent (wrapLead extra)).RunsTo c) :
    b.RunsTo c.popIndent := by
  obtain ⟨ops, inner⟩ := h
  refine runsTo_run (.wrapped extra ops) ?_
  rw [BuilderOp.run, wrapped, inner]

/-- Whatever changes a builder preserves `I`, if only names that `names` admits are written. -/
structure IsInvariant (names : Text → Prop) (I : Builder → Prop) : Prop where
  copy {b : Builder} (h : I b) (offset : Nat) (cell : Cell) : I (putCopy offset b cell)
  name {b : Builder} {t : Text} (h : I b) (admitted : names t) : I (b.appendName t)
  owe {b : Builder} (h : I b) : I b.breakBeforeNext
  push {b : Builder} (h : I b) (lead : Lead) : I (b.pushIndent lead)
  pop {b : Builder} (h : I b) : I b.popIndent
  bind {b : Builder} (h : I b) (count : Nat) (l : Ledger) : I (b.withBinding count l)

end Builder

mutual

/-- The names that an operation writes on the builder itself. What is written on a builder that is
embedded is copied as it stands, names or not. -/
def BuilderOp.names : BuilderOp → List Text
  | .appendName s => [s]
  | .wrapped _ ops => BuilderOp.namesOf ops
  | .apply ops => BuilderOp.namesOf ops
  | _ => []

def BuilderOp.namesOf : List BuilderOp → List Text
  | [] => []
  | op :: ops => op.names ++ BuilderOp.namesOf ops

end

namespace Builder

namespace IsInvariant

variable {b c s : Builder} {names : Text → Prop} {I : Builder → Prop}

theorem endLine (inv : IsInvariant names I) (h : I b) : I b.endLine := by
  have copied := inv.copy h 0 (.char '\n')
  rwa [putCopy, putChar, if_pos rfl] at copied

theorem copies (inv : IsInvariant names I) (h : I b) (offset : Nat) (cells : List Cell) :
    I (cells.foldl (putCopy offset) b) := by
  induction cells generalizing b with
  | nil => exact h
  | cons cell cells ih => exact ih (inv.copy h offset cell)

theorem append (inv : IsInvariant names I) (h : I b) (t : Text) : I (b.append t) := by
  rw [append_eq_copies]
  exact inv.copies h 0 _

theorem appendKept (inv : IsInvariant names I) (h : I b) (t : Text) : I (b.appendKept t) := by
  rw [appendKept_eq_copies]
  exact inv.copies h 0 _

theorem wrapKeeping (inv : IsInvariant names I) (h : I b) (t : Text) (ranges : List ByteRange)
    (extra : Nat) : I (b.wrapKeeping t ranges extra) := by
  have around : ∀ {c : Builder}, I c → ∀ offset rest kept, I (c.appendAround offset rest kept) := by
    intro c here offset rest kept
    induction kept generalizing c offset rest with
    | nil => exact inv.append here rest
    | cons r kept ih => exact ih (inv.appendKept (inv.append here _) _) _ _
  exact inv.pop (around (inv.push h (wrapLead extra)) _ _ _)

theorem addBind {v : BindVariable} (inv : IsInvariant names I) (h : I b)
    (e : b.addBind v = (c, .ok ())) : I c := by
  obtain ⟨l, -, rfl⟩ := addBind_eq_ok_iff.mp e
  exact inv.bind h (b.bindCount + 1) l

theorem appendBind {v : BindVariable} (inv : IsInvariant names I) (h : I b)
    (e : b.appendBind v = (c, .ok ())) : I c := by
  obtain ⟨l, -, rfl⟩ := appendBind_eq_ok_iff_record.mp e
  have marked := inv.copy h 0 (.marker (b.bindCount + 1))
  exact inv.bind marked (b.bindCount + 1) l

theorem embed (inv : IsInvariant names I) (h : I b) (e : b.embed s = (c, .ok ())) : I c := by
  obtain ⟨l, -, rfl⟩ := embed_eq_ok_iff.mp e
  have copied := inv.copies h b.bindCount s.cells.toList
  refine inv.bind ?_ _ l
  rw [copyText]
  split
  · exact inv.owe copied
  · exact copied

mutual

theorem run {b c : Builder} (inv : IsInvariant names I) (h : I b) :
    (op : BuilderOp) → (∀ t ∈ op.names, names t) → op.run b = (c, .ok ()) → I c
  | .append s, _, e => (Prod.mk.inj e).1 ▸ inv.append h s
  | .appendInt n, _, e => (Prod.mk.inj e).1 ▸ inv.append h (Numeral.ofInt n)
  | .appendName s, admitted, e =>
    (Prod.mk.inj e).1 ▸ inv.name h (admitted s (List.mem_singleton.mpr rfl))
  | .appendKept s, _, e => (Prod.mk.inj e).1 ▸ inv.appendKept h s
  | .endLine, _, e => (Prod.mk.inj e).1 ▸ inv.endLine h
  | .breakBeforeNext, _, e => (Prod.mk.inj e).1 ▸ inv.owe h
  | .pushIndent lead, _, e => (Prod.mk.inj e).1 ▸ inv.push h lead
  | .popIndent, _, e => (Prod.mk.inj e).1 ▸ inv.pop h
  | .wrap s extra, _, e => (Prod.mk.inj e).1 ▸ inv.wrapKeeping h s [] extra
  | .wrapKeeping s ranges extra, _, e => (Prod.mk.inj e).1 ▸ inv.wrapKeeping h s ranges extra
  | .addBind _, _, e => inv.addBind h e
  | .appendBind _, _, e => inv.appendBind h e
  | .wrapped extra ops, admitted, e => by
    obtain ⟨rfl, done⟩ := Prod.mk.inj e
    exact inv.pop (inv.runAll (inv.push h (wrapLead extra)) ops admitted (Prod.ext rfl done))
  | .apply ops, admitted, e => inv.runAll h ops admitted e
  | .embed style ops, _, e => by
    obtain ⟨s, -, embedded⟩ := BuilderOp.run_embed.mp e
    exact inv.embed h embedded
  | .refused _, _, e => nomatch (Prod.mk.inj e).2

theorem runAll {b c : Builder} (inv : IsInvariant names I) (h : I b) :
    (ops : List BuilderOp) → (∀ t ∈ BuilderOp.namesOf ops, names t) →
      BuilderOp.runAll b ops = (c, .ok ()) → I c
  | [], _, e => (Prod.mk.inj e).1 ▸ h
  | op :: ops, admitted, e => by
    obtain ⟨d, first, rest⟩ := BuilderOp.runAll_cons.mp e
    have here := inv.run h op (fun t mem => admitted t (List.mem_append_left _ mem)) first
    exact inv.runAll here ops (fun t mem => admitted t (List.mem_append_right _ mem)) rest

end

end IsInvariant

variable {b c d s : Builder}

/-- A break is owed only in a line, and a line that has begun holds a cell. -/
structure Regular (b : Builder) : Prop where
  owing : b.pendingBreak = true → b.atLineStart = false
  written : b.atLineStart = false → b.cells.toList ≠ []

theorem regular_empty (style : PlaceholderStyle) : (empty style).Regular :=
  ⟨by simp [empty], by simp [empty]⟩

theorem regular_putCell (b : Builder) (cell : Cell) (wordTail : Bool) :
    (b.putCell cell wordTail).Regular :=
  ⟨fun _ => atLineStart_putCell b cell wordTail, fun _ => cells_putCell_ne_nil b cell wordTail⟩

theorem regular_endLine (b : Builder) : b.endLine.Regular :=
  ⟨by simp [endLine], by simp [endLine]⟩

theorem regular_putCopy (offset : Nat) (b : Builder) (cell : Cell) :
    (putCopy offset b cell).Regular := by
  cases cell with
  | char c =>
    rw [putCopy, putChar]
    split
    · exact regular_endLine b
    · exact regular_putCell b _ _
  | kept c => exact regular_putCell b _ _
  | marker p => exact regular_putCell b _ _

namespace Regular

theorem settleBreak (h : b.Regular) : b.settleBreak.Regular := by
  rw [Builder.settleBreak]
  split
  · exact regular_endLine b
  · exact ⟨by simp, h.written⟩

theorem breakBeforeNext (h : b.Regular) : b.breakBeforeNext.Regular := by
  rw [Builder.breakBeforeNext]
  split
  · exact h
  · next inLine => exact ⟨fun _ => by simpa using inLine, h.written⟩

theorem append (h : b.Regular) (t : Text) : (b.append t).Regular := by
  rw [append_eq_copies]
  generalize t.map Cell.char = cells
  induction cells generalizing b with
  | nil => exact h
  | cons cell cells ih => exact ih (regular_putCopy 0 b cell)

theorem appendName (h : b.Regular) (t : Text) : (b.appendName t).Regular := by
  simp only [Builder.appendName]
  split
  · have spaced : Regular
        { b.settleBreak with cells := b.settleBreak.cells.push (.char ' ') } :=
      ⟨h.settleBreak.owing, fun _ => by simp⟩
    exact spaced.append t
  · exact h.settleBreak.append t

end Regular

theorem isInvariant_regular : IsInvariant (fun _ => True) Regular where
  copy _ offset cell := regular_putCopy offset _ cell
  name h _ := h.appendName _
  owe h := h.breakBeforeNext
  push h _ := ⟨h.owing, h.written⟩
  pop h := ⟨h.owing, h.written⟩
  bind h _ _ := ⟨h.owing, h.written⟩

theorem RunsTo.regular (g : b.RunsTo c) (h : b.Regular) : c.Regular := by
  obtain ⟨ops, ran⟩ := g
  exact isInvariant_regular.runAll h ops (fun _ _ => trivial) ran

theorem IsScripted.regular {style : PlaceholderStyle} (h : s.IsScripted style) : s.Regular :=
  RunsTo.regular h (regular_empty style)

end Builder

open Builder

section Writers

variable {scope : Scope} {b c : Builder} {style : PlaceholderStyle}

namespace Template

variable {name template : Text} {args : List Builder} {ts : List TemplateSlot}

theorem runsTo_embedAll {isFirst : Bool} (scripted : ∀ a ∈ args, a.IsScripted style)
    (g : embedAll isFirst b args = .ok c) : b.RunsTo c := by
  induction args generalizing isFirst b with
  | nil =>
    obtain rfl := Except.ok.inj g
    exact .refl b
  | cons arg args ih =>
    simp only [embedAll] at g
    obtain ⟨d, embedded, rest⟩ := Except.bind_eq_ok_iff.mp g
    have comma : b.RunsTo (if isFirst then b else b.append ", ") := by
      split
      · exact .refl b
      · exact runsTo_append b _
    have here := runsTo_embed (Attempt.toExcept_eq_ok_iff.mp embedded) (scripted arg (by simp))
    have later := ih (fun a mem => scripted a (List.mem_cons_of_mem arg mem)) rest
    exact comma.trans (here.trans later)

theorem runsTo_fill (scripted : ∀ a ∈ args, a.IsScripted style)
    (g : fill name args b ts = .ok c) : b.RunsTo c := by
  induction ts generalizing b with
  | nil =>
    obtain rfl := Except.ok.inj g
    exact .refl b
  | cons slot ts ih =>
    cases slot with
    | text s => exact (runsTo_append b s).trans (ih g)
    | argument n =>
      simp only [fill] at g
      split at g
      · cases g
      · next arg found =>
        obtain ⟨d, embedded, rest⟩ := Except.bind_eq_ok_iff.mp g
        have own := scripted arg (List.mem_of_getElem? found)
        exact (runsTo_embed (Attempt.toExcept_eq_ok_iff.mp embedded) own).trans (ih rest)
    | all =>
      obtain ⟨d, embedded, rest⟩ := Except.bind_eq_ok_iff.mp g
      exact (runsTo_embedAll scripted embedded).trans (ih rest)

theorem isScripted_foldLeft {first : Builder} (own : first.IsScripted style)
    (scripted : ∀ a ∈ args, a.IsScripted style)
    (g : foldLeft name ts style first args = .ok c) : c.IsScripted style := by
  induction args generalizing first with
  | nil =>
    obtain rfl := Except.ok.inj g
    exact own
  | cons next args ih =>
    obtain ⟨d, filled, rest⟩ := Except.bind_eq_ok_iff.mp g
    have pair : ∀ a ∈ [first, next], a.IsScripted style := by
      simpa using ⟨own, scripted next (by simp)⟩
    exact ih (runsTo_fill pair filled) (fun a mem => scripted a (List.mem_cons_of_mem next mem))
      rest

theorem runsTo_apply (scripted : ∀ a ∈ args, a.IsScripted b.style)
    (g : apply name template args b = .ok c) : b.RunsTo c := by
  simp only [apply] at g
  split at g
  · cases args with
    | nil =>
      obtain rfl := Except.ok.inj g
      exact .refl b
    | cons first args =>
      obtain ⟨d, folded, embedded⟩ := Except.bind_eq_ok_iff.mp g
      have whole := isScripted_foldLeft (scripted first (by simp))
        (fun a mem => scripted a (List.mem_cons_of_mem first mem)) folded
      exact runsTo_embed (Attempt.toExcept_eq_ok_iff.mp embedded) whole
  · exact runsTo_fill scripted g

end Template

theorem ColumnRef.runsTo_write (scope : Scope) (column : ColumnRef) (b : Builder) :
    b.RunsTo (column.write scope b) := by
  rw [ColumnRef.write]
  split
  · exact ((runsTo_appendName b _).trans (runsTo_append _ _)).trans (runsTo_append _ _)
  · exact runsTo_appendName b _

theorem RawPart.runsTo_writeAll {binds : List BindVariable} {parts : List RawPart}
    (g : RawPart.writeAll binds b parts = (c, .ok ())) : b.RunsTo c := by
  induction parts generalizing b with
  | nil =>
    obtain rfl := (Prod.mk.inj g).1
    exact .refl b
  | cons part parts ih =>
    cases part with
    | text s => exact (runsTo_append b s).trans (ih g)
    | literal s => exact (runsTo_run (.appendKept s) rfl).trans (ih g)
    | bind i =>
      simp only [RawPart.writeAll] at g
      split at g
      · exact ih g
      · split at g
        · cases g
        · next appended => exact (runsTo_appendBind appended).trans (ih g)

theorem RawSql.runsTo_write {raw : RawSql} (g : raw.write scope b = .ok c) : b.RunsTo c := by
  simp only [RawSql.write] at g
  split at g
  · cases g
  · obtain ⟨d, done, last⟩ := Except.bind_eq_ok_iff.mp g
    simp only [Builder.wrapped, Attempt.toExcept_eq_ok_iff, Prod.mk.injEq] at done
    obtain ⟨rfl, result⟩ := done
    have written := runsTo_wrapped (RawPart.runsTo_writeAll (Prod.ext rfl result))
    obtain rfl := Except.ok.inj last
    split
    · exact written.trans (runsTo_run .breakBeforeNext rfl)
    · exact written

mutual

theorem Expr.runsTo_write (e : Expr) {b c : Builder} (g : e.write scope b = .ok c) :
    b.RunsTo c := by
  cases e with
  | literal v =>
    obtain ⟨s, -, written⟩ := Except.bind_eq_ok_iff.mp g
    obtain rfl := Except.ok.inj written
    exact runsTo_append b s
  | column ref =>
    obtain rfl := Except.ok.inj g
    exact ref.runsTo_write scope b
  | bind v => exact runsTo_appendBind (Attempt.toExcept_eq_ok_iff.mp g)
  | call f args type =>
    obtain ⟨rendered, own, applied⟩ := Except.bind_eq_ok_iff.mp g
    exact Template.runsTo_apply (Expr.isScripted_writeArgs args own) applied
  | raw sql type => exact RawSql.runsTo_write g

theorem Expr.isScripted_writeArgs (args : List Expr) {isOperator : Bool}
    {style : PlaceholderStyle} {rendered : List Builder}
    (g : Expr.writeArgs scope isOperator style args = .ok rendered) :
    ∀ a ∈ rendered, a.IsScripted style := by
  cases args with
  | nil =>
    obtain rfl := Except.ok.inj g
    simp
  | cons arg args =>
    obtain ⟨first, others, one, all, rfl⟩ := Expr.writeArgs_cons g
    refine List.forall_mem_cons.mpr ⟨?_, Expr.isScripted_writeArgs args all⟩
    rcases one with ⟨c, inside, rfl⟩ | one
    · have opened := runsTo_append (Builder.empty style) ['(']
      exact (opened.trans (Expr.runsTo_write arg inside)).trans (runsTo_append c _)
    · exact Expr.runsTo_write arg one

end

end Writers

end SqlCompose
