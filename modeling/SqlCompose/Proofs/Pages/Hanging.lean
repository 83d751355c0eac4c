import SqlCompose.Proofs.Fragments.Rows
import SqlCompose.Proofs.Names

/-! Texts over several lines. Where a text is written at an indentation, or a builder that holds it
is embedded at one, its later lines are moved to the right: the lines hang below the first one.
Texts that are written one after the other stay in their order, with something between them. -/

namespace SqlCompose

inductive InOrder {α : Type} : List (List α) → List α → Prop where
  | nil (rest : List α) : InOrder [] rest
  | cons (gap part : List α) {parts : List (List α)} {rest : List α} (h : InOrder parts rest) :
    InOrder (part :: parts) (gap ++ (part ++ rest))

namespace InOrder

variable {α β : Type} {ps qs : List (List α)} {xs ys : List α}

theorem behind (gap : List α) (h : InOrder ps xs) : InOrder ps (gap ++ xs) := by
  cases h with
  | nil rest => exact .nil _
  | cons inner part h =>
    rw [← List.append_assoc]
    exact .cons (gap ++ inner) part h

theorem append (h : InOrder ps xs) (g : InOrder qs ys) : InOrder (ps ++ qs) (xs ++ ys) := by
  induction h with
  | nil rest => exact g.behind rest
  | cons gap part h ih =>
    rw [List.append_assoc, List.append_assoc]
    exact .cons gap part ih

theorem flatMap (f : α → List β) (h : InOrder ps xs) :
    InOrder (ps.map (List.flatMap f)) (xs.flatMap f) := by
  induction h with
  | nil rest => exact .nil _
  | cons gap part h ih =>
    rw [List.flatMap_append, List.flatMap_append]
    exact .cons _ _ ih

end InOrder

/-- The text with its lines moved to the right, but for empty ones. Whether a line has just begun,
the flag says. -/
def Text.hangFrom (width : Nat) : Bool → Text → Text
  | _, [] => []
  | atStart, c :: s =>
    if c = '\n' then c :: hangFrom width true s
    else (if atStart then spaces width else []) ++ c :: hangFrom width false s

/-- The text with all lines behind the first one moved to the right, but for empty ones. -/
def Text.hang (width : Nat) (s : Text) : Text :=
  s.hangFrom width false

namespace Text

variable {n m : Nat} {c : Char} {s t : Text}

theorem hangFrom_lineEnd (atStart : Bool) :
    hangFrom n atStart ('\n' :: s) = '\n' :: hangFrom n true s :=
  if_pos rfl

theorem hangFrom_visible (atStart : Bool) (visible : c ≠ '\n') : hangFrom n atStart (c :: s) =
    (if atStart then spaces n else []) ++ c :: hangFrom n false s :=
  if_neg visible

theorem hangFrom_append (inLine : '\n' ∉ s) :
    hangFrom n false (s ++ t) = s ++ hangFrom n false t := by
  induction s with
  | nil => rfl
  | cons c s ih =>
    simp only [List.mem_cons, not_or] at inLine
    rw [List.cons_append, hangFrom_visible false (Ne.symm inLine.1), ih inLine.2]
    rfl

theorem hang_of_not_mem (inLine : '\n' ∉ s) : hang n s = s := by
  have whole := hangFrom_append (n := n) (t := []) inLine
  rw [List.append_nil, hangFrom, List.append_nil] at whole
  exact whole

theorem hangFrom_spaces_append (visible : c ≠ '\n') : hangFrom n true (spaces m ++ c :: s) =
    spaces (n + m) ++ c :: hangFrom n false s := by
  cases m with
  | zero => exact hangFrom_visible true visible
  | succ m =>
    have blank : ' ' ≠ '\n' := by decide
    have first : spaces (m + 1) = ' ' :: spaces m := List.replicate_succ
    have joined : spaces (n + (m + 1)) = spaces n ++ ' ' :: spaces m := by
      rw [← first]
      exact List.replicate_add n (m + 1) ' '
    rw [first, List.cons_append, hangFrom_visible true blank, hangFrom_append (inLine_spaces m),
      hangFrom_visible false visible, joined]
    simp

theorem hangFrom_hangFrom (atStart : Bool) (s : Text) :
    hangFrom n atStart (hangFrom m atStart s) = hangFrom (n + m) atStart s := by
  induction s generalizing atStart with
  | nil => rfl
  | cons c s ih =>
    by_cases lineEnd : c = '\n'
    · subst lineEnd
      simp only [hangFrom_lineEnd, ih]
    · rw [hangFrom_visible atStart lineEnd, hangFrom_visible atStart lineEnd]
      cases atStart with
      | false =>
        simp only [Bool.false_eq_true, if_false, List.nil_append]
        rw [hangFrom_visible false lineEnd, ih]
        rfl
      | true =>
        simp only [if_true]
        rw [hangFrom_spaces_append lineEnd, ih]

theorem hang_hang (s : Text) : hang n (hang m s) = hang (n + m) s :=
  hangFrom_hangFrom false s

theorem hangFrom_zero (atStart : Bool) (s : Text) : hangFrom 0 atStart s = s := by
  induction s generalizing atStart with
  | nil => rfl
  | cons c s ih =>
    rw [hangFrom]
    split
    · rw [ih]
    · cases atStart <;> simp [ih, spaces]

/-- A line end with something else behind it. -/
def Breaks (s : Text) : Prop :=
  ∃ u c v, s = u ++ '\n' :: c :: v ∧ c ≠ '\n'

theorem Breaks.cons (c : Char) (h : s.Breaks) : Breaks (c :: s) := by
  obtain ⟨u, d, v, rfl, visible⟩ := h
  exact ⟨c :: u, d, v, rfl, visible⟩

theorem length_le_hangFrom (n : Nat) (atStart : Bool) (s : Text) :
    s.length ≤ (hangFrom n atStart s).length := by
  induction s generalizing atStart with
  | nil => exact Nat.le_refl _
  | cons c s ih =>
    have rest := ih true
    have rest' := ih false
    rw [hangFrom]
    split <;> simp only [List.length_cons, List.length_append] <;> omega

theorem Breaks.length_hangFrom (h : s.Breaks) (n : Nat) (atStart : Bool) :
    s.length + n ≤ (hangFrom n atStart s).length := by
  obtain ⟨u, c, v, rfl, visible⟩ := h
  induction u generalizing atStart with
  | nil =>
    have rest := length_le_hangFrom n false v
    rw [List.nil_append, hangFrom_lineEnd, hangFrom_visible true visible]
    simp only [if_true, List.length_cons, List.length_append, spaces, List.length_replicate]
    omega
  | cons d u ih =>
    have rest := ih true
    have rest' := ih false
    rw [List.cons_append, hangFrom]
    split <;> simp only [List.length_cons, List.length_append] at rest rest' ⊢ <;> omega

theorem breaks_of_mem (mem : '\n' ∈ s) (last : ∀ c ∈ s.getLast?, c ≠ '\n') : s.Breaks := by
  induction s with
  | nil => cases mem
  | cons c s ih =>
    cases s with
    | nil =>
      obtain rfl := List.mem_singleton.mp mem
      exact absurd rfl (last _ rfl)
    | cons d s =>
      by_cases later : '\n' ∈ d :: s
      · exact (ih later fun e ends => last e (by simpa using ends)).cons c
      · obtain rfl : '\n' = c := (List.mem_cons.mp mem).resolve_right later
        exact ⟨[], d, s, rfl, fun same => later (by simp [same])⟩

theorem getLast?_hangFrom (atStart : Bool) (s : Text) :
    (hangFrom n atStart s).getLast? = s.getLast? := by
  induction s generalizing atStart with
  | nil => rfl
  | cons c s ih =>
    have last : ∀ t : Bool, (c :: hangFrom n t s).getLast? = (c :: s).getLast? := by
      intro t
      rw [List.getLast?_cons, List.getLast?_cons, ih t]
    rw [hangFrom]
    split
    · exact last true
    · rw [List.getLast?_append, last false, List.getLast?_cons]
      rfl

end Text

namespace IsTight

variable {s : Text}

theorem hang_iff (n : Nat) : IsTight (s.hang n) ↔ IsTight s := by
  have first : (s.hang n).head? = s.head? := by
    cases s with
    | nil => rfl
    | cons c s =>
      rw [Text.hang, Text.hangFrom]
      split <;> rfl
  have last : (s.hang n).getLast? = s.getLast? := Text.getLast?_hangFrom false s
  exact ⟨fun h => ⟨first ▸ h.first, last ▸ h.last⟩, fun h => ⟨first ▸ h.first, last ▸ h.last⟩⟩

theorem begins (h : IsTight s) : ∃ c rest, s = c :: rest ∧ c ≠ '\n' := by
  obtain ⟨c, first, visible⟩ := h.first
  obtain ⟨rest, rfl⟩ := List.head?_eq_some_iff.mp first
  refine ⟨c, rest, rfl, ?_⟩
  rintro rfl
  cases visible

theorem hang_eq_self_iff (h : IsTight s) (n : Nat) : s.hang n = s ↔ n = 0 ∨ '\n' ∉ s := by
  refine ⟨fun same => Classical.or_iff_not_imp_right.mpr fun mem => ?_, ?_⟩
  · have ends : ∀ c ∈ s.getLast?, c ≠ '\n' := by
      obtain ⟨d, last, visible⟩ := h.last
      rintro c mem rfl
      rw [← Option.mem_unique mem last] at visible
      cases visible
    have longer := (Text.breaks_of_mem (Classical.not_not.mp mem) ends).length_hangFrom n false
    rw [show s.hangFrom n false = s from same] at longer
    omega
  · rintro (rfl | inLine)
    · exact Text.hangFrom_zero false s
    · exact Text.hang_of_not_mem inLine

end IsTight

namespace Builder

variable {b c d s : Builder} {n m : Nat} {ts us : List Text} {w : Text}

theorem laterLead_extends (h : b.Extends c) : c.laterLead = b.laterLead := by
  have same := congrArg (fun leads : List Lead => leads.reverse.flatMap (Lead.text false)) h.leads
  simp only [← List.map_reverse, List.flatMap_map] at same
  exact same

theorem lead_of_begun (begun : b.indents.map IndentEntry.begun = b.indents) :
    b.lead = b.laterLead := by
  rw [Builder.lead, ← begun, laterLead, ← List.map_reverse, List.flatMap_map]
  rfl

theorem cells_append_of_begun (settled : b.pendingBreak = false)
    (begun : b.indents.map IndentEntry.begun = b.indents) (lead : b.lead = Text.spaces n)
    (w : Text) : (b.append w).cells.toList =
      b.cells.toList ++ (w.hangFrom n b.atLineStart).map Cell.char := by
  induction w generalizing b with
  | nil => simp [append, Text.hangFrom]
  | cons c w ih =>
    have step : b.append (c :: w) = (b.putChar c).append w := rfl
    rw [step]
    by_cases lineEnd : c = '\n'
    · subst lineEnd
      have ended : b.putChar '\n' = b.endLine := if_pos rfl
      have behind := ih (b := b.endLine) rfl begun lead
      rw [ended, behind, Text.hangFrom_lineEnd]
      simp [endLine]
    · have put : b.putChar c = b.putCell (.char c) (isWordChar c) := if_neg lineEnd
      have indents : (b.putCell (.char c) (isWordChar c)).indents = b.indents :=
        ((Extends.refl b).putCell _ _).indents.elim id fun first => first.trans begun
      have same : (b.putCell (.char c) (isWordChar c)).lead = Text.spaces n := by
        rw [Builder.lead, indents, ← lead]
        rfl
      have front : b.front = if b.atLineStart then Text.spaces n else [] := by
        simp [Builder.front, settled, lead]
      have behind := ih (b := b.putCell (.char c) (isWordChar c)) b.startLine_settleBreak.1
        (by rw [indents, begun]) same
      rw [put, behind, atLineStart_putCell, cells_putCell, front, Text.hangFrom_visible _ lineEnd]
      simp

def Begun (b : Builder) : Prop :=
  b.atLineStart = false → b.indents.map IndentEntry.begun = b.indents

theorem begun_empty (style : PlaceholderStyle) : (empty style).Begun := nofun

theorem begun_endLine (b : Builder) : b.endLine.Begun := nofun

theorem Begun.settleBreak (h : b.Begun) : b.settleBreak.Begun := by
  rw [Builder.settleBreak]
  split
  · exact b.begun_endLine
  · exact h

theorem Begun.startLine (h : b.Begun) : b.startLine.Begun := by
  rw [Builder.startLine]
  split
  · have twice : IndentEntry.begun ∘ IndentEntry.begun = IndentEntry.begun := rfl
    intro _
    exact (List.map_map ..).trans (congrArg (List.map · b.indents) twice)
  · exact h

theorem Begun.putCell (h : b.Begun) (cell : Cell) (wordTail : Bool) :
    (b.putCell cell wordTail).Begun :=
  h.settleBreak.startLine

theorem Begun.putCopy (h : b.Begun) (offset : Nat) (cell : Cell) :
    (putCopy offset b cell).Begun := by
  cases cell with
  | char x =>
    rw [Builder.putCopy, putChar]
    split
    · exact b.begun_endLine
    · exact h.putCell _ _
  | kept x => exact h.putCell _ _
  | marker p => exact h.putCell _ _

theorem Begun.copies (h : b.Begun) (offset : Nat) (cells : List Cell) :
    (cells.foldl (Builder.putCopy offset) b).Begun := by
  induction cells generalizing b with
  | nil => exact h
  | cons cell cells ih => exact ih (h.putCopy offset cell)

theorem Begun.append (h : b.Begun) (w : Text) : (b.append w).Begun := by
  rw [append_eq_copies]
  exact h.copies 0 _

theorem Begun.appendKept (h : b.Begun) (w : Text) : (b.appendKept w).Begun := by
  rw [appendKept_eq_copies]
  exact h.copies 0 _

theorem Begun.breakBeforeNext (h : b.Begun) : b.breakBeforeNext.Begun := by
  rw [Builder.breakBeforeNext]
  split <;> exact h

theorem Begun.appendBind {v : BindVariable} (h : b.Begun) (e : b.appendBind v = (c, .ok ())) :
    c.Begun := by
  obtain ⟨l, -, rfl⟩ := appendBind_eq_ok_iff_record.mp e
  exact h.putCell (.marker (b.bindCount + 1)) (b.style == .dollar)

theorem Begun.pushIndent (h : b.Begun) (lead : Lead) : (b.pushIndent lead).Begun := by
  intro inLine
  have started : b.atLineStart = false := inLine
  simp only [Builder.pushIndent, List.map_cons, h started, started]
  rfl

theorem Begun.popIndent (h : b.Begun) : b.popIndent.Begun := by
  intro inLine
  have begun := congrArg List.tail (h inLine)
  rwa [← List.map_tail] at begun

/-- The texts stand in the builder in this order. Its lines behind the first ones of all
indentations begin with `n` spaces. -/
structure Shows (b : Builder) (n : Nat) (ts : List Text) : Prop where
  hangs : b.laterLead = Text.spaces n
  begun : b.Begun
  inOrder : InOrder (ts.map (List.map Cell.char)) b.cells.toList
  tight : ∀ t ∈ ts, IsTight t

abbrev ShowEach (bs : List Builder) (rows : List (List Text)) : Prop :=
  List.Forall₂ (fun (b : Builder) row => b.Shows 0 row) bs rows

theorem shows_empty (style : PlaceholderStyle) : (empty style).Shows 0 [] :=
  ⟨rfl, begun_empty style, .nil _, nofun⟩

namespace Shows

theorem of_extends (h : b.Shows n ts) (more : b.Extends c) (begun : c.Begun) : c.Shows n ts := by
  obtain ⟨added, whole⟩ := more.text
  refine ⟨(laterLead_extends more).trans h.hangs, begun, ?_, h.tight⟩
  rw [← whole]
  simpa using h.inOrder.append (.nil added)

theorem append (h : b.Shows n ts) (w : Text) : (b.append w).Shows n ts :=
  h.of_extends ((Extends.refl b).append w) (h.begun.append w)

theorem appendKept (h : b.Shows n ts) (w : Text) : (b.appendKept w).Shows n ts :=
  h.of_extends ((Extends.refl b).appendKept w) (h.begun.appendKept w)

theorem endLine (h : b.Shows n ts) : b.endLine.Shows n ts :=
  h.of_extends (Extends.refl b).endLine b.begun_endLine

theorem breakBeforeNext (h : b.Shows n ts) : b.breakBeforeNext.Shows n ts :=
  h.of_extends (Extends.refl b).breakBeforeNext h.begun.breakBeforeNext

theorem settleBreak (h : b.Shows n ts) : b.settleBreak.Shows n ts :=
  h.of_extends (Extends.refl b).settleBreak h.begun.settleBreak

theorem pushIndent {lead : Lead} (h : b.Shows n ts) (later : lead.text false = Text.spaces m) :
    (b.pushIndent lead).Shows (n + m) ts := by
  refine ⟨?_, h.begun.pushIndent lead, h.inOrder, h.tight⟩
  have behind : (b.pushIndent lead).laterLead = b.laterLead ++ lead.text false := by
    simp [laterLead, Builder.pushIndent]
  rw [behind, h.hangs, later]
  exact (List.replicate_add n m ' ').symm

theorem popIndent {lead : Lead} (h : c.Shows m us) (b : Builder)
    (hangs : b.laterLead = Text.spaces n) (more : (b.pushIndent lead).Extends c) :
    c.popIndent.Shows n us :=
  ⟨(laterLead_extends more.popIndent).trans hangs, h.begun.popIndent, h.inOrder, h.tight⟩

theorem text (h : b.Shows n ts) (tight : IsTight w) :
    (b.append w).Shows n (ts ++ [w.hang n]) := by
  have written : ∃ gap, (b.append w).cells.toList =
      b.cells.toList ++ (gap ++ ((w.hang n).map Cell.char ++ [])) := by
    obtain ⟨c, w, rfl, visible⟩ := tight.begins
    have step : b.append (c :: w) = (b.putCell (.char c) (isWordChar c)).append w := by
      simp [Builder.append, putChar, visible]
    have inLine := atLineStart_putCell b (.char c) (isWordChar c)
    have begun := (h.begun.putCell (.char c) (isWordChar c)) inLine
    have lead : (b.putCell (.char c) (isWordChar c)).lead = Text.spaces n := by
      rw [lead_of_begun begun, laterLead_extends ((Extends.refl b).putCell _ _), h.hangs]
    have settled : (b.putCell (.char c) (isWordChar c)).pendingBreak = false :=
      b.startLine_settleBreak.1
    have rest := cells_append_of_begun settled begun lead w
    refine ⟨b.front.map Cell.char, ?_⟩
    rw [step, rest, inLine, cells_putCell, Text.hang, Text.hangFrom_visible false visible]
    simp
  obtain ⟨gap, written⟩ := written
  have behind := h.append w
  refine ⟨behind.hangs, behind.begun, ?_, ?_⟩
  · rw [written, List.map_append]
    exact h.inOrder.append (.cons gap _ (.nil []))
  · exact List.forall_mem_append.mpr ⟨h.tight, by simpa using (IsTight.hang_iff n).mpr tight⟩

theorem copies (h : b.Shows n ts) (offset : Nat) {cells : List Cell}
    (inOrder : InOrder (us.map (List.map Cell.char)) cells) (tight : ∀ u ∈ us, IsTight u) :
    (cells.foldl (putCopy offset) b).Shows n (ts ++ us.map (Text.hang n)) := by
  have more : ∀ {b : Builder} {ts : List Text} (cells : List Cell), b.Shows n ts →
      (cells.foldl (putCopy offset) b).Shows n ts := fun cells h =>
    h.of_extends ((Extends.refl _).copies offset cells) (h.begun.copies offset cells)
  induction us generalizing b ts cells with
  | nil => simpa using more cells h
  | cons u us ih =>
    rw [List.map_cons] at inOrder
    cases inOrder with
    | cons gap part inOrder =>
      have copied : ∀ b : Builder, (u.map Cell.char).foldl (putCopy offset) b = b.append u := by
        intro b
        rw [List.foldl_map]
        rfl
      obtain ⟨first, others⟩ := List.forall_mem_cons.mp tight
      rw [List.foldl_append, List.foldl_append, copied]
      simpa using ih ((more gap h).text first) inOrder others

theorem embed (h : b.Shows n ts) (g : s.Shows m us) (e : b.embed s = (d, .ok ())) :
    d.Shows n (ts ++ us.map (Text.hang n)) := by
  obtain ⟨l, -, rfl⟩ := embed_eq_ok_iff.mp e
  have copied := h.copies b.bindCount g.inOrder g.tight
  have same : (b.copyText s).Shows n (ts ++ us.map (Text.hang n)) := by
    rw [copyText]
    split
    · exact copied.breakBeforeNext
    · exact copied
  exact ⟨same.hangs, same.begun, same.inOrder, same.tight⟩

theorem appendBind {v : BindVariable} (h : b.Shows n ts) (e : b.appendBind v = (c, .ok ())) :
    c.Shows n ts :=
  h.of_extends ((Extends.refl b).appendBind e) (h.begun.appendBind e)

theorem name (h : b.Shows n ts) (tight : IsTight w) :
    (b.appendName w).Shows n (ts ++ [w.hang n]) := by
  have settled := h.settleBreak
  simp only [Builder.appendName]
  split
  · have spaced : Extends b.settleBreak
        { b.settleBreak with cells := b.settleBreak.cells.push (.char ' ') } :=
      ⟨by simp, .inl rfl, rfl⟩
    exact (settled.of_extends spaced settled.begun).text tight
  · exact settled.text tight

theorem inOrder_sql (h : b.Shows n ts) : InOrder ts b.finish.sql := by
  have texts := h.inOrder.flatMap (Cell.text b.style)
  have each : ∀ t : Text, (t.map Cell.char).flatMap (Cell.text b.style) = t := by
    intro t
    simp [List.flatMap_map, Cell.text]
  simp only [List.map_map, Function.comp_def, each, List.map_id'] at texts
  exact texts

end Shows

end Builder

end SqlCompose
