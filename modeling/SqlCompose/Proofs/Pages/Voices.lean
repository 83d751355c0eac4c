import SqlCompose.Proofs.Lexing.Literals
import SqlCompose.Proofs.Pages.Extends
import SqlCompose.Proofs.Pages.Speaking

/-! What says something. Literals, names and placeholders do, and so does a call if its template
begins with a text that does, or with an argument in front of one. Of the expressions, conditions
and sources, only a fragment that nothing is written around can be silent. -/

namespace SqlCompose

open Builder

theorem isVoice_append {s : Text} (voice : isVoice s = true) (t : Text) :
    isVoice (s ++ t) = true := by
  induction s with
  | nil => cases voice
  | cons c s ih =>
    rw [isVoice] at voice
    rw [List.cons_append, isVoice]
    split at voice
    · next space =>
      rw [if_pos space]
      exact ih voice
    · next visible =>
      rw [if_neg visible]
      cases s with
      | nil => simp_all [isSettled]
      | cons d s => exact voice

theorem isVoice_of_ne {c : Char} (visible : isBlank c = false) (dash : c ≠ '-') (slash : c ≠ '/')
    (s : Text) : isVoice (c :: s) = true := by
  have space : c ≠ ' ' := by
    rintro rfl
    exact absurd visible (by decide)
  rw [isVoice, if_neg space, visible, isSettled, if_neg dash, if_neg slash]
  rfl

theorem isVoice_of_isNameChar {c : Char} (name : isNameChar c = true) (s : Text) :
    isVoice (c :: s) = true := by
  refine isVoice_of_ne (isBlank_of_isNameChar name) ?_ ?_ s <;> rintro rfl <;>
    exact absurd name (by decide)

theorem isVoice_number {sign s : Text} (signed : sign = [] ∨ sign = ['-']) (some : s ≠ [])
    (digit : ∀ c ∈ s.head?, Numeral.isDigit c = true) : isVoice (sign ++ s) = true := by
  obtain ⟨c, s, rfl⟩ := List.exists_cons_of_ne_nil some
  have first := digit c rfl
  rcases signed with rfl | rfl
  · exact isVoice_of_isNameChar (Lexeme.isNameChar_of_isDigit first) s
  · have other : c ≠ '-' := by
      rintro rfl
      exact absurd first (by decide)
    have visible : isBlank '-' = false := by decide
    simp [isVoice, isSettled, visible, other]

theorem isVoice_ofInt (n : Int) : isVoice (Numeral.ofInt n) = true := by
  have some : Numeral.ofNat n.natAbs ≠ [] := Nat.toDigits_ne_nil
  have digit : ∀ c ∈ (Numeral.ofNat n.natAbs).head?, Numeral.isDigit c = true :=
    fun c head => isDigit_ofNat (List.mem_of_head? head)
  rw [Numeral.ofInt]
  split
  · exact isVoice_number (.inr rfl) some digit
  · exact isVoice_number (.inl rfl) some digit

theorem FixedDecimal.isVoice_text (x : FixedDecimal) : isVoice x.text = true := by
  have length : x.scale + 1 ≤ (Numeral.padded (x.scale + 1) x.coefficient.natAbs).length := by
    rw [Numeral.padded, List.length_append, List.length_replicate]
    omega
  have digits := fun c => isDigit_padded (x.scale + 1) x.coefficient.natAbs (c := c)
  simp only [FixedDecimal.text]
  generalize Numeral.padded (x.scale + 1) x.coefficient.natAbs = s at length digits
  refine isVoice_append (isVoice_number ?_ ?_ fun c head => ?_) _
  · split <;> simp
  · rw [← List.length_pos_iff, List.length_take]
    omega
  · exact digits c (List.mem_of_mem_take (List.mem_of_head? head))

theorem Decimal.Digits.isVoice_positional {d : Decimal.Digits} {sign : Text}
    (signed : sign = [] ∨ sign = ['-']) (digits : ∀ c ∈ d.digits, Numeral.isDigit c = true) :
    isVoice (sign ++ d.positional []) = true := by
  have zeros : ∀ n, ∀ c ∈ Decimal.zeros n, Numeral.isDigit c = true := by
    intro n c mem
    rw [List.eq_of_mem_replicate mem]
    decide
  unfold positional
  split_ifs with fraction whole
  · refine isVoice_number signed (List.cons_ne_nil '0' _) ?_
    rintro c head
    obtain rfl := Option.some.inj head
    decide
  · have some : 0 < (d.digits ++ Decimal.zeros (d.point - d.digits.length).toNat).length := by
      rw [List.length_append, Decimal.zeros, List.length_replicate]
      omega
    rw [List.append_nil]
    refine isVoice_number signed (List.length_pos_iff.mp some) fun c head => ?_
    rcases List.mem_append.mp (List.mem_of_head? head) with own | zero
    · exact digits c own
    · exact zeros _ c zero
  · rw [← List.append_assoc]
    refine isVoice_append (isVoice_number signed ?_ fun c head => ?_) _
    · rw [← List.length_pos_iff, List.length_take]
      omega
    · exact digits c (List.mem_of_mem_take (List.mem_of_head? head))

theorem Binary64.isVoice_text {x : Binary64} (finite : x.isFinite = true) :
    isVoice x.text = true := by
  have signed : x.sign = [] ∨ x.sign = ['-'] := by
    unfold sign
    split <;> simp
  have number : x.isNaN = false := by simp [isNaN, finite]
  simp only [text, number, finite, Bool.not_true, Bool.false_eq_true, if_false]
  split
  · exact isVoice_number (s := ['0']) signed (by simp) (by simp; decide)
  · exact Decimal.Digits.isVoice_positional signed (Decimal.isDigit_shortest x.target)

theorem Handler.isVoice_literal {h : Handler} {v : Value} {s : Text}
    (ok : h.literal v = .ok s) : isVoice s = true := by
  induction h generalizing v s with
  | domain t base ih => cases v <;> exact ih ok
  | bool =>
    cases v <;> cases ok
    next b => cases b <;> decide
  | int =>
    cases v <;> cases ok
    exact isVoice_ofInt _
  | float =>
    cases v <;> simp only [literal, reduceCtorEq] at ok
    split at ok
    · next finite =>
      obtain rfl := Except.ok.inj ok
      exact Binary64.isVoice_text finite
    · cases ok
  | decimal =>
    cases v <;> cases ok
    exact FixedDecimal.isVoice_text _
  | text | uuid =>
    cases v <;> cases ok
    exact isVoice_of_ne (by decide) (by decide) (by decide) _
  | date | time | timestamp =>
    cases v <;> cases ok
    exact isVoice_append (isVoice_append (by decide) _) _

theorem Registry.isVoice_literal {r : Registry} {v : Value} {s : Text}
    (ok : r.literal v = .ok s) : isVoice s = true := by
  obtain ⟨h, -, literal⟩ := Except.bind_eq_ok_iff.mp ok
  exact h.isVoice_literal literal

theorem SimpleName.isVoice_sql (n : SimpleName) : isVoice n.sql = true := by
  cases n with
  | unquoted s folded =>
    cases s with
    | nil => cases folded
    | cons c s =>
      simp only [isFoldedName, isPlainName, Bool.and_eq_true] at folded
      exact isVoice_of_isNameChar (Lexeme.isNameChar_of_isNameStart folded.1.1) s
  | quoted s printable => exact isVoice_of_ne (by decide) (by decide) (by decide) _

theorem NamePath.isVoice_sql (p : NamePath) : isVoice p.sql = true := by
  have some : p.segments ≠ [] := by simp [segments]
  rw [sql]
  generalize p.segments = ns at some
  cases ns with
  | nil => exact absurd rfl some
  | cons n ns =>
    cases ns with
    | nil => exact n.isVoice_sql
    | cons m ns => exact isVoice_append (isVoice_append n.isVoice_sql _) _

namespace Template

/-- Whether a template says something, also if its first argument does not. -/
def isVoiced : List TemplateSlot → Bool
  | .text s :: _ => isVoice s
  | .argument _ :: .text s :: _ => isSoftVoice s
  | _ => false

variable {name template : Text} {ts : List TemplateSlot} {args : List Builder}
  {style : PlaceholderStyle} {b c first : Builder}

theorem says_fill (h : b.Starting) (inner : ∀ arg ∈ args, (empty style).Hushed arg)
    (voiced : isVoiced ts = true) (g : fill name args b ts = .ok c) : b.Says c := by
  match ts with
  | .text s :: ts => exact (h.says_append voiced).extends (fill_extends g)
  | .argument n :: .text s :: ts =>
    rw [fill] at g
    split at g
    · cases g
    · next arg found =>
      obtain ⟨d, embedded, rest⟩ := Except.bind_eq_ok_iff.mp g
      have hushed := h.hushed_embed (inner arg (List.mem_of_getElem? found))
        (Attempt.toExcept_eq_ok_iff.mp embedded)
      exact (hushed.append h voiced).extends (fill_extends rest)

theorem says_foldLeft (hushed : (empty style).Hushed first)
    (inner : ∀ arg ∈ args, (empty style).Hushed arg) (voiced : isVoiced ts = true) (some : args ≠ [])
    (g : foldLeft name ts style first args = .ok c) : (empty style).Says c := by
  induction args generalizing first with
  | nil => exact absurd rfl some
  | cons next rest ih =>
    obtain ⟨d, filled, folded⟩ := Except.bind_eq_ok_iff.mp g
    obtain ⟨one, others⟩ := List.forall_mem_cons.mp inner
    have pair : ∀ arg ∈ [first, next], (empty style).Hushed arg := by simp [hushed, one]
    have said := says_fill (starting_empty style) pair voiced filled
    cases rest with
    | nil =>
      obtain rfl := Except.ok.inj folded
      exact said
    | cons next rest => exact ih said.hushed others (by simp) folded

theorem says_apply (h : b.Starting) (inner : ∀ arg ∈ args, (empty b.style).Hushed arg)
    (voiced : isVoiced (slots template) = true) (g : apply name template args b = .ok c) :
    b.Says c := by
  simp only [apply] at g
  split at g
  · next several =>
    have many : 2 < args.length := by simpa using ((Bool.and_eq_true _ _).mp several).2
    cases args with
    | nil => cases many
    | cons first rest =>
      obtain ⟨d, folded, embedded⟩ := Except.bind_eq_ok_iff.mp g
      obtain ⟨one, others⟩ := List.forall_mem_cons.mp inner
      have some : rest ≠ [] := by
        rintro rfl
        simp at many
      have said := says_foldLeft one others voiced some folded
      exact h.says_embed said (Attempt.toExcept_eq_ok_iff.mp embedded)
  · exact says_fill h inner voiced g

end Template

structure Renderer.IsVoiced (r : Renderer) : Prop where
  call : ∀ f, Template.isVoiced (Template.slots (r.template f)) = true
  compare : ∀ op, Template.isVoiced (Template.slots (r.comparisonTemplate op)) = true

theorem Renderer.HasDefaultTemplates.isVoiced {r : Renderer} (h : r.HasDefaultTemplates) :
    r.IsVoiced := by
  refine ⟨fun f => ?_, fun op => ?_⟩
  · rw [h.call, f.slots_spec]
    cases f <;> decide +kernel
  · rw [h.compare, op.slots_template]
    cases op <;> decide +kernel

section Write

variable {scope : Scope} {b c : Builder}

theorem Builder.Starting.says_writeColumn (h : b.Starting) (column : ColumnRef) :
    b.Says (column.write scope b) := by
  rw [ColumnRef.write]
  split
  · next q _ =>
    have qualified := h.says_appendName q.isVoice_sql
    exact qualified.extends (((Extends.refl _).append _).append _)
  · exact h.says_appendName column.column.isVoice_sql

def Expr.fragment? : Expr → Option RawSql
  | .raw sql _ => some sql
  | _ => none

mutual

theorem Expr.hushed_write (voiced : scope.renderer.IsVoiced) (e : Expr) {b c : Builder}
    (h : b.Starting) (g : e.write scope b = .ok c) :
    b.Hushed c ∧ (e.fragment? = none → b.Says c) := by
  have ofSaid : b.Says c → b.Hushed c ∧ (e.fragment? = none → b.Says c) :=
    fun said => ⟨said.hushed, fun _ => said⟩
  cases e with
  | literal v =>
    obtain ⟨s, found, last⟩ := Except.bind_eq_ok_iff.mp g
    obtain rfl := Except.ok.inj last
    exact ofSaid (h.says_append (Registry.isVoice_literal found))
  | column column =>
    obtain rfl := Except.ok.inj g
    exact ofSaid (h.says_writeColumn column)
  | bind v => exact ofSaid (h.says_appendBind (Attempt.toExcept_eq_ok_iff.mp g))
  | call f args type =>
    obtain ⟨rendered, written, applied⟩ := Except.bind_eq_ok_iff.mp g
    have inner := Expr.hushed_writeArgs voiced args written
    exact ofSaid (Template.says_apply h inner (voiced.call f) applied)
  | raw sql type => exact ⟨(RawSql.hushed_write h g).1, fun none => by cases none⟩

theorem Expr.hushed_writeArgs (voiced : scope.renderer.IsVoiced) (args : List Expr)
    {isOperator : Bool} {style : PlaceholderStyle} {bs : List Builder}
    (g : Expr.writeArgs scope isOperator style args = .ok bs) :
    ∀ b ∈ bs, (Builder.empty style).Hushed b := by
  cases args with
  | nil =>
    obtain rfl := Except.ok.inj g
    simp
  | cons arg rest =>
    obtain ⟨first, others, one, all, rfl⟩ := Expr.writeArgs_cons g
    have own : (Builder.empty style).Hushed first := by
      rcases one with ⟨c, inside, rfl⟩ | one
      · have opened := (starting_empty style).says_append (s := ['(']) (by decide)
        exact (opened.extends ((Expr.write_extends inside).append _)).hushed
      · exact (Expr.hushed_write voiced arg (starting_empty style) one).1
    exact List.forall_mem_cons.mpr ⟨own, Expr.hushed_writeArgs voiced rest all⟩

end

namespace Condition

def Piece.fragment? : Piece → Option RawSql
  | raw sql => some sql
  | _ => none

theorem Piece.says_write (voiced : scope.renderer.IsVoiced) (p : Piece)
    (other : p.fragment? = none) (h : b.Starting) (g : p.write scope b = .ok c) : b.Says c := by
  have word : ∀ {s : Text}, isVoice s = true →
      Except.ok (b.append s) = (.ok c : Except SqlError Builder) → b.Says c := by
    intro s voice same
    obtain rfl := Except.ok.inj same
    exact h.says_append voice
  cases p with
  | compare left op right =>
    obtain ⟨args, written, applied⟩ := Except.bind_eq_ok_iff.mp g
    exact Template.says_apply h (Expr.hushed_writeArgs voiced _ written) (voiced.compare op) applied
  | isNull expr negated =>
    obtain ⟨d, written, last⟩ := Except.bind_eq_ok_iff.mp g
    obtain rfl := Except.ok.inj last
    refine (Expr.hushed_write voiced expr h written).1.append h ?_
    cases negated <;> decide +kernel
  | raw sql => cases other
  | always | never | and | or | not | opening | closing => exact word (by decide +kernel) g

/-- The row is a fragment alone, or begins with another piece. -/
inductive Opens : List Piece → Prop
  | fragment (raw : RawSql) : Opens [.raw raw]
  | other {p : Piece} {ps : List Piece} (other : p.fragment? = none) : Opens (p :: ps)

theorem opens_group {joiner : Piece} {rows : List (List Piece)} (each : ∀ ps ∈ rows, Opens ps) :
    Opens (group joiner rows) := by
  match rows with
  | [] => exact .other rfl
  | [ps] => exact each ps (by simp)
  | ps :: qs :: rows => exact .other rfl

mutual

theorem opens_pieces (c : Condition) : Opens c.pieces := by
  cases c with
  | compare left op right =>
    rw [pieces]
    split <;> exact .other rfl
  | isNull expr negated => exact .other rfl
  | and cs =>
    rw [pieces]
    split
    · exact .other rfl
    · exact opens_group (opens_livePieces cs)
  | or cs =>
    rw [pieces]
    split
    · exact .other rfl
    · exact opens_group (opens_branchPieces cs)
  | not c =>
    rw [pieces]
    split <;> exact .other rfl
  | raw sql => exact .fragment sql
  | empty => exact .other rfl

theorem opens_livePieces (cs : List Condition) : ∀ ps ∈ livePieces cs, Opens ps := by
  cases cs with
  | nil => simp [livePieces]
  | cons c cs =>
    rw [livePieces]
    split
    · exact opens_livePieces cs
    · exact List.forall_mem_cons.mpr ⟨opens_pieces c, opens_livePieces cs⟩

theorem opens_branchPieces (cs : List Condition) : ∀ ps ∈ branchPieces cs, Opens ps := by
  cases cs with
  | nil => simp [branchPieces]
  | cons c cs => exact List.forall_mem_cons.mpr ⟨opens_pieces c, opens_branchPieces cs⟩

end

def fragment? (c : Condition) : Option RawSql :=
  match c.pieces with
  | [.raw sql] => some sql
  | _ => none

theorem write_of_fragment {condition : Condition} {raw : RawSql}
    (same : condition.fragment? = some raw) : condition.write scope = raw.write scope := by
  have alone : condition.pieces = [.raw raw] := by
    rw [fragment?] at same
    split at same
    · next sql found => rw [found, Option.some.inj same]
    · cases same
  rw [← write_raw]
  funext b
  rw [write, write, alone]
  rfl

theorem says_write (voiced : scope.renderer.IsVoiced) {condition : Condition}
    (other : condition.fragment? = none) (h : b.Starting) (g : condition.write scope b = .ok c) :
    b.Says c := by
  have opens := condition.opens_pieces
  rw [write] at g
  rw [fragment?] at other
  generalize condition.pieces = ps at opens other g
  cases opens with
  | fragment raw => cases other
  | @other p ps first =>
    obtain ⟨d, written, rest⟩ := Except.bind_eq_ok_iff.mp g
    exact (p.says_write voiced first h written).extends (Piece.writeAll_extends rest)

end Condition

theorem Builder.Hushed.says_writeAlias (hushed : b.Hushed c) (h : b.Starting) (a : SimpleName) :
    b.Says (writeAlias c (some a)) := by
  have joined : writeAlias c (some a) = c.append (' ' :: a.sql) := append_append c [' '] a.sql
  rw [joined]
  refine hushed.append h ?_
  rw [isSoftVoice, isVoice, if_pos rfl, a.isVoice_sql]
  rfl

def SelectColumn.fragment? (column : SelectColumn) : Option RawSql :=
  match column.aliasName with
  | none => column.expr.fragment?
  | some _ => none

theorem SelectColumn.says_write (voiced : scope.renderer.IsVoiced) {column : SelectColumn}
    (other : column.fragment? = none) (h : b.Starting) (g : column.write scope b = .ok c) :
    b.Says c := by
  obtain ⟨e, a⟩ := column
  obtain ⟨d, written, last⟩ := Except.bind_eq_ok_iff.mp g
  obtain rfl := Except.ok.inj last
  obtain ⟨hushed, said⟩ := e.hushed_write voiced h written
  cases a with
  | none => exact said other
  | some a => exact hushed.says_writeAlias h a

theorem SelectColumn.write_of_fragment {column : SelectColumn} {raw : RawSql}
    (same : column.fragment? = some raw) : column.write scope = raw.write scope := by
  obtain ⟨e, a⟩ := column
  cases a with
  | some a => cases same
  | none =>
    cases e with
    | raw sql type =>
      obtain rfl := Option.some.inj same
      funext b
      exact bind_pure _
    | literal | column | bind | call => cases same

def Source.fragment? : Source → Option RawSql
  | .raw sql none => some sql
  | _ => none

theorem Source.write_of_fragment {source : Source} {raw : RawSql}
    (same : source.fragment? = some raw) :
    (fun b => source.write scope b) = raw.write scope := by
  match source with
  | .raw sql none =>
    obtain rfl := Option.some.inj same
    funext b
    rw [Source.write]
    exact bind_pure _

theorem Source.says_write {source : Source} (other : source.fragment? = none) (h : b.Starting)
    (g : source.write scope b = .ok c) : b.Says c := by
  cases source with
  | table name aliasName =>
    obtain rfl := Except.ok.inj g
    exact (h.says_appendName name.isVoice_sql).extends (extends_writeAlias (.refl _) aliasName)
  | subselect select aliasName =>
    obtain ⟨inner, -, g⟩ := Except.bind_eq_ok_iff.mp g
    obtain ⟨d, embedded, last⟩ := Except.bind_eq_ok_iff.mp g
    obtain rfl := Except.ok.inj last
    have opened := h.says_append (s := ['(']) (by decide)
    have embedded := (Extends.refl _).embed (Attempt.toExcept_eq_ok_iff.mp embedded)
    exact opened.extends (extends_writeAlias (((Extends.refl _).endLine.trans
      embedded.popIndent).append _) _)
  | raw sql aliasName =>
    obtain ⟨d, written, last⟩ := Except.bind_eq_ok_iff.mp g
    obtain rfl := Except.ok.inj last
    cases aliasName with
    | none => cases other
    | some a => exact (RawSql.hushed_write h written).1.says_writeAlias h a

end Write

end SqlCompose
