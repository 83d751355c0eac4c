import SqlCompose.Proofs.Embedding
import SqlCompose.Render.Select

/-! Writing only adds to a text. Every operation and every writer leaves what has been written
before, and the indentation in force. The characters of a long literal are written without
anything between them, so they stay together wherever their builder is embedded. -/

namespace SqlCompose

def IndentEntry.begun (e : IndentEntry) : IndentEntry :=
  { e with started := true }

namespace Builder

/-- The text of `b` stands in front of the text of `c`. The same indentations are in force,
perhaps behind their first lines, and the style is the same. -/
structure Extends (b c : Builder) : Prop where
  text : b.cells.toList <+: c.cells.toList
  indents : c.indents = b.indents ∨ c.indents = b.indents.map IndentEntry.begun
  style : c.style = b.style

namespace Extends

variable {b c d s : Builder}

theorem refl (b : Builder) : b.Extends b :=
  ⟨List.prefix_rfl, .inl rfl, rfl⟩

theorem begun (h : b.Extends c) :
    c.indents.map IndentEntry.begun = b.indents.map IndentEntry.begun := by
  have twice : IndentEntry.begun ∘ IndentEntry.begun = IndentEntry.begun := rfl
  rcases h.indents with same | first
  · rw [same]
  · rw [first, List.map_map, twice]

theorem leads (h : b.Extends c) :
    c.indents.map IndentEntry.lead = b.indents.map IndentEntry.lead := by
  have same := congrArg (List.map IndentEntry.lead) h.begun
  simp only [List.map_map] at same
  exact same

theorem trans (h : b.Extends c) (g : c.Extends d) : b.Extends d := by
  refine ⟨h.text.trans g.text, ?_, g.style.trans h.style⟩
  rcases g.indents with same | first
  · rw [same]
    exact h.indents
  · exact .inr (first.trans h.begun)

theorem withBinding (h : b.Extends c) (count : Nat) (l : Ledger) :
    b.Extends (c.withBinding count l) :=
  ⟨h.text, h.indents, h.style⟩

theorem endLine (h : b.Extends c) : b.Extends c.endLine :=
  ⟨h.text.trans (by simp [Builder.endLine]), h.indents, h.style⟩

theorem settleBreak (h : b.Extends c) : b.Extends c.settleBreak := by
  rw [Builder.settleBreak]
  split
  · exact h.endLine
  · exact ⟨h.text, h.indents, h.style⟩

theorem startLine (h : b.Extends c) : b.Extends c.startLine := by
  rw [Builder.startLine]
  split
  · exact ⟨h.text.trans (by simp), .inr h.begun, h.style⟩
  · exact h

theorem putCell (h : b.Extends c) (cell : Cell) (wordTail : Bool) :
    b.Extends (c.putCell cell wordTail) := by
  obtain ⟨text, indents, style⟩ := h.settleBreak.startLine
  exact ⟨text.trans (by simp [Builder.putCell]), indents, style⟩

theorem putCopy (h : b.Extends c) (offset : Nat) (cell : Cell) :
    b.Extends (putCopy offset c cell) := by
  cases cell with
  | char x =>
    rw [Builder.putCopy, putChar]
    split
    · exact h.endLine
    · exact h.putCell _ _
  | kept x => exact h.putCell _ _
  | marker p => exact h.putCell _ _

theorem copies (h : b.Extends c) (offset : Nat) (cells : List Cell) :
    b.Extends (cells.foldl (Builder.putCopy offset) c) := by
  induction cells generalizing c with
  | nil => exact h
  | cons cell cells ih => exact ih (h.putCopy offset cell)

theorem append (h : b.Extends c) (s : Text) : b.Extends (c.append s) := by
  rw [append_eq_copies]
  exact h.copies 0 _

theorem appendKept (h : b.Extends c) (s : Text) : b.Extends (c.appendKept s) := by
  rw [appendKept_eq_copies]
  exact h.copies 0 _

theorem appendName (h : b.Extends c) (s : Text) : b.Extends (c.appendName s) := by
  simp only [Builder.appendName]
  split
  · obtain ⟨text, indents, style⟩ := h.settleBreak
    have spaced : b.Extends
        { c.settleBreak with cells := c.settleBreak.cells.push (.char ' ') } :=
      ⟨text.trans (by simp), indents, style⟩
    exact spaced.append s
  · exact h.settleBreak.append s

theorem breakBeforeNext (h : b.Extends c) : b.Extends c.breakBeforeNext := by
  rw [Builder.breakBeforeNext]
  split
  · exact h
  · exact ⟨h.text, h.indents, h.style⟩

theorem appendBind {v : BindVariable} (h : b.Extends c) (e : c.appendBind v = (d, .ok ())) :
    b.Extends d := by
  obtain ⟨l, -, rfl⟩ := appendBind_eq_ok_iff_record.mp e
  exact (h.putCell _ (c.style == .dollar)).withBinding _ _

theorem embed (h : b.Extends c) (e : c.embed s = (d, .ok ())) : b.Extends d := by
  obtain ⟨l, -, rfl⟩ := embed_eq_ok_iff.mp e
  have copied := h.copies c.bindCount s.cells.toList
  refine Extends.withBinding ?_ _ _
  rw [copyText]
  split
  · exact copied.breakBeforeNext
  · exact copied

theorem popIndent {lead : Lead} (h : (b.pushIndent lead).Extends c) : b.Extends c.popIndent := by
  refine ⟨h.text, ?_, h.style⟩
  rcases h.indents with same | first
  · exact .inl (congrArg List.tail same)
  · exact .inr (congrArg List.tail first)

end Extends

variable {b c d : Builder} {w : Text} {cells : List Cell}

theorem cells_copies_kept (offset : Nat) (settled : b.pendingBreak = false)
    (inLine : b.atLineStart = false) :
    ((w.map Cell.kept).foldl (putCopy offset) b).cells.toList =
      b.cells.toList ++ w.map Cell.kept := by
  induction w generalizing b with
  | nil => simp
  | cons x w ih =>
    have first : (b.putKept x).cells.toList = b.cells.toList ++ [.kept x] := by
      rw [putKept, putCell_inLine _ settled inLine, Array.toList_push]
    have rest := ih (b := b.putKept x) b.startLine_settleBreak.1 (atLineStart_putCell b _ _)
    exact rest.trans (by simp [first])

theorem kept_infix_copies (offset : Nat) (b : Builder) (h : w.map Cell.kept <:+: cells) :
    w.map Cell.kept <:+: (cells.foldl (putCopy offset) b).cells.toList := by
  obtain ⟨xs, ys, rfl⟩ := h
  rw [List.foldl_append, List.foldl_append]
  generalize xs.foldl (putCopy offset) b = c
  have literal :
      w.map Cell.kept <:+: ((w.map Cell.kept).foldl (putCopy offset) c).cells.toList := by
    cases w with
    | nil => exact List.nil_infix
    | cons x w =>
      -- only in front of the first one, a line may begin
      have settled : (c.putKept x).pendingBreak = false := c.startLine_settleBreak.1
      have rest := cells_copies_kept (w := w) offset settled (atLineStart_putCell c _ _)
      have first : (c.putKept x).cells.toList =
          c.settleBreak.startLine.cells.toList ++ [.kept x] := by
        simp [putKept, putCell]
      refine ⟨c.settleBreak.startLine.cells.toList, [], ?_⟩
      rw [List.map_cons, List.foldl_cons]
      exact Eq.symm (rest.trans (by simp [first]))
  generalize (w.map Cell.kept).foldl (putCopy offset) c = d at literal ⊢
  exact literal.trans ((Extends.refl d).copies offset ys).text.isInfix

/-- The builder has been written on, or embedded into others, again and again. -/
inductive Inside (b : Builder) : Builder → Prop
  | here : b.Inside b
  | written {c d : Builder} (inner : b.Inside c) (more : c.Extends d) : b.Inside d
  | embedded {c d outer : Builder} (inner : b.Inside c) (e : outer.embed c = (d, .ok ())) :
    b.Inside d

theorem Inside.kept_infix (h : b.Inside d) (run : w.map Cell.kept <:+: b.cells.toList) :
    w.map Cell.kept <:+: d.cells.toList := by
  induction h with
  | here => exact run
  | written _ more ih => exact ih.trans more.text.isInfix
  | @embedded c d outer _ e ih =>
    obtain ⟨l, -, rfl⟩ := embed_eq_ok_iff.mp e
    have copied := kept_infix_copies outer.bindCount outer ih
    have same : ((outer.copyText c).withBinding (outer.bindCount + c.bindCount) l).cells =
        (c.cells.toList.foldl (putCopy outer.bindCount) outer).cells := by
      simp only [copyText, Builder.withBinding, breakBeforeNext]
      split <;> [split <;> rfl; rfl]
    rw [same]
    exact copied

theorem kept_infix_sql (h : w.map Cell.kept <:+: b.cells.toList) : w <:+: b.finish.sql := by
  obtain ⟨xs, ys, split⟩ := h
  refine ⟨codeText b.style xs, codeText b.style ys, ?_⟩
  have whole : b.finish.sql = codeText b.style (xs ++ w.map Cell.kept ++ ys) := by
    rw [split]
    rfl
  have literal : codeText b.style (w.map Cell.kept) = w := by
    simp [codeText, List.flatMap_map, Cell.text]
  rw [whole, codeText_append, codeText_append, literal]

end Builder

open Builder

section Writers

variable {scope : Scope} {b c : Builder}

theorem RawPart.writeAll_extends {binds : List BindVariable} {parts : List RawPart}
    (g : RawPart.writeAll binds b parts = (c, .ok ())) : b.Extends c := by
  induction parts generalizing b with
  | nil =>
    obtain rfl := (Prod.mk.inj g).1
    exact .refl _
  | cons part parts ih =>
    cases part with
    | text s => exact ((Extends.refl b).append s).trans (ih g)
    | literal s => exact ((Extends.refl b).appendKept s).trans (ih g)
    | bind i =>
      simp only [RawPart.writeAll] at g
      split at g
      · exact ih g
      · split at g
        · cases g
        · next appended => exact ((Extends.refl b).appendBind appended).trans (ih g)

theorem RawSql.write_extends {raw : RawSql} (g : raw.write scope b = .ok c) : b.Extends c := by
  simp only [RawSql.write] at g
  split at g
  · cases g
  · obtain ⟨d, done, last⟩ := Except.bind_eq_ok_iff.mp g
    simp only [Builder.wrapped, Attempt.toExcept_eq_ok_iff, Prod.mk.injEq] at done
    obtain ⟨rfl, result⟩ := done
    have written := (RawPart.writeAll_extends (Prod.ext rfl result)).popIndent
    obtain rfl := Except.ok.inj last
    split
    · exact written.breakBeforeNext
    · exact written

namespace Template

variable {name template : Text} {args : List Builder} {ts : List TemplateSlot}

theorem embedAll_extends {isFirst : Bool} (g : embedAll isFirst b args = .ok c) : b.Extends c := by
  induction args generalizing isFirst b with
  | nil =>
    obtain rfl := Except.ok.inj g
    exact .refl b
  | cons arg args ih =>
    simp only [embedAll] at g
    obtain ⟨d, embedded, rest⟩ := Except.bind_eq_ok_iff.mp g
    have comma : b.Extends (if isFirst then b else b.append ", ") := by
      split
      · exact .refl b
      · exact (Extends.refl b).append _
    exact (comma.embed (Attempt.toExcept_eq_ok_iff.mp embedded)).trans (ih rest)

theorem fill_extends (g : fill name args b ts = .ok c) : b.Extends c := by
  induction ts generalizing b with
  | nil =>
    obtain rfl := Except.ok.inj g
    exact .refl b
  | cons slot ts ih =>
    cases slot with
    | text s => exact ((Extends.refl b).append s).trans (ih g)
    | argument n =>
      simp only [fill] at g
      split at g
      · cases g
      · obtain ⟨d, embedded, rest⟩ := Except.bind_eq_ok_iff.mp g
        have next := (Extends.refl b).embed (Attempt.toExcept_eq_ok_iff.mp embedded)
        exact next.trans (ih rest)
    | all =>
      obtain ⟨d, embedded, rest⟩ := Except.bind_eq_ok_iff.mp g
      exact (embedAll_extends embedded).trans (ih rest)

theorem apply_extends (g : apply name template args b = .ok c) : b.Extends c := by
  simp only [apply] at g
  split at g
  · split at g
    · obtain rfl := Except.ok.inj g
      exact .refl b
    · obtain ⟨d, -, embedded⟩ := Except.bind_eq_ok_iff.mp g
      exact (Extends.refl b).embed (Attempt.toExcept_eq_ok_iff.mp embedded)
  · exact fill_extends g

end Template

theorem ColumnRef.write_extends (scope : Scope) (column : ColumnRef) (b : Builder) :
    b.Extends (column.write scope b) := by
  rw [ColumnRef.write]
  split
  · exact (((Extends.refl b).appendName _).append _).append _
  · exact (Extends.refl b).appendName _

theorem Expr.write_extends {e : Expr} (g : e.write scope b = .ok c) : b.Extends c := by
  cases e with
  | literal v =>
    obtain ⟨s, -, written⟩ := Except.bind_eq_ok_iff.mp g
    obtain rfl := Except.ok.inj written
    exact (Extends.refl b).append s
  | column column =>
    obtain rfl := Except.ok.inj g
    exact column.write_extends scope b
  | bind v => exact (Extends.refl b).appendBind (Attempt.toExcept_eq_ok_iff.mp g)
  | call f args type =>
    obtain ⟨rendered, -, applied⟩ := Except.bind_eq_ok_iff.mp g
    exact Template.apply_extends applied
  | raw sql type => exact RawSql.write_extends g

namespace Condition

theorem Piece.write_extends {p : Piece} (g : p.write scope b = .ok c) : b.Extends c := by
  have word : ∀ {s : Text}, Except.ok (b.append s) = (.ok c : Except SqlError Builder) →
      b.Extends c := by
    intro s same
    obtain rfl := Except.ok.inj same
    exact (Extends.refl b).append s
  cases p with
  | compare left op right =>
    obtain ⟨args, -, applied⟩ := Except.bind_eq_ok_iff.mp g
    exact Template.apply_extends applied
  | isNull expr negated =>
    obtain ⟨d, written, last⟩ := Except.bind_eq_ok_iff.mp g
    obtain rfl := Except.ok.inj last
    exact (Expr.write_extends written).append _
  | raw sql => exact RawSql.write_extends g
  | _ => exact word g

theorem Piece.writeAll_extends {ps : List Piece} (g : Piece.writeAll scope b ps = .ok c) :
    b.Extends c := by
  induction ps generalizing b with
  | nil =>
    obtain rfl := Except.ok.inj g
    exact .refl b
  | cons p ps ih =>
    obtain ⟨d, first, rest⟩ := Except.bind_eq_ok_iff.mp g
    exact (Piece.write_extends first).trans (ih rest)

theorem write_extends {condition : Condition} (g : condition.write scope b = .ok c) :
    b.Extends c :=
  Piece.writeAll_extends g

end Condition

def Writer.Extending (w : Writer) : Prop :=
  ∀ {b c : Builder}, w b = .ok c → b.Extends c

variable {lead rest keyword : Text} {item : Writer} {items : List Writer}

theorem writeItem_extending (extending : item.Extending) :
    (writeItem lead rest item).Extending := by
  intro b c g
  obtain ⟨d, written, last⟩ := Except.bind_eq_ok_iff.mp g
  obtain rfl := Except.ok.inj last
  exact (extending written).endLine.popIndent

theorem writeItems_extends (extending : ∀ item ∈ items, item.Extending)
    (g : writeItems lead rest b items = .ok c) : b.Extends c := by
  induction items generalizing b with
  | nil =>
    obtain rfl := Except.ok.inj g
    exact .refl b
  | cons item items ih =>
    obtain ⟨d, first, others⟩ := Except.bind_eq_ok_iff.mp g
    have later : ∀ item ∈ items, item.Extending := fun w mem =>
      extending w (List.mem_cons_of_mem item mem)
    exact (writeItem_extending (extending item (by simp)) first).trans (ih later others)

theorem writeClause_extending (extending : ∀ item ∈ items, item.Extending) :
    (writeClause scope keyword lead items).Extending := by
  intro b c g
  have headed : b.Extends (b.append keyword).endLine := ((Extends.refl b).append keyword).endLine
  cases items with
  | nil =>
    obtain rfl := Except.ok.inj g
    exact headed
  | cons item items =>
    obtain ⟨d, first, others⟩ := Except.bind_eq_ok_iff.mp g
    have later : ∀ item ∈ items, item.Extending := fun w mem =>
      extending w (List.mem_cons_of_mem item mem)
    have second := writeItem_extending (extending item (by simp)) first
    exact headed.trans (second.trans (writeItems_extends later others))

theorem extends_writeAlias (h : b.Extends c) (a : Option SimpleName) :
    b.Extends (writeAlias c a) := by
  cases a with
  | none => exact h
  | some a => exact (h.append _).append _

theorem SelectColumn.write_extending (column : SelectColumn) : (column.write scope).Extending := by
  intro b c g
  obtain ⟨d, written, last⟩ := Except.bind_eq_ok_iff.mp g
  obtain rfl := Except.ok.inj last
  exact extends_writeAlias (Expr.write_extends written) _

theorem Source.write_extends {source : Source} (g : source.write scope b = .ok c) :
    b.Extends c := by
  cases source with
  | table name aliasName =>
    obtain rfl := Except.ok.inj g
    exact extends_writeAlias ((Extends.refl b).appendName _) _
  | subselect select aliasName =>
    obtain ⟨inner, -, g⟩ := Except.bind_eq_ok_iff.mp g
    obtain ⟨d, embedded, last⟩ := Except.bind_eq_ok_iff.mp g
    obtain rfl := Except.ok.inj last
    have opened : b.Extends (b.append ['(']).endLine := ((Extends.refl b).append _).endLine
    have embedded := (Extends.refl _).embed (Attempt.toExcept_eq_ok_iff.mp embedded)
    exact extends_writeAlias ((opened.trans embedded.popIndent).append _) _
  | raw sql aliasName =>
    obtain ⟨d, written, last⟩ := Except.bind_eq_ok_iff.mp g
    obtain rfl := Except.ok.inj last
    exact extends_writeAlias (RawSql.write_extends written) _

theorem Source.writers_extending {sources : List Source} :
    ∀ w ∈ Source.writers scope sources, w.Extending := by
  induction sources with
  | nil => exact fun w mem => absurd mem List.not_mem_nil
  | cons source sources ih =>
    intro w mem
    rcases List.mem_cons.mp mem with rfl | later
    · exact fun g => Source.write_extends g
    · exact ih w later

theorem Select.write_extends {s : Select} (g : s.write scope b = .ok c) : b.Extends c := by
  obtain ⟨columns, sources, condition⟩ := s
  simp only [Select.write] at g
  obtain ⟨d, first, g⟩ := Except.bind_eq_ok_iff.mp g
  obtain ⟨e, second, g⟩ := Except.bind_eq_ok_iff.mp g
  have list : b.Extends d := by
    refine writeClause_extending (fun w mem => ?_) first
    obtain ⟨column, -, rfl⟩ := List.mem_map.mp mem
    exact column.write_extending
  have both : b.Extends e := by
    refine list.trans (writeClause_extending (fun w mem => ?_) second)
    rw [fromItems] at mem
    split at mem
    · obtain rfl := List.mem_singleton.mp mem
      intro b c g
      obtain rfl := Except.ok.inj g
      exact (Extends.refl b).append _
    · exact Source.writers_extending w mem
  split at g
  · obtain rfl := Except.ok.inj g
    exact both
  · refine both.trans (writeClause_extending (fun w mem => ?_) g)
    obtain ⟨item, -, rfl⟩ := List.mem_map.mp mem
    exact fun written => Condition.write_extends written

end Writers

end SqlCompose
