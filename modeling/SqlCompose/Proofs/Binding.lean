import SqlCompose.Code.Builder
import SqlCompose.Proofs.Ledger

/-! What builder operations do to placeholders. Writing text leaves the placeholders, their count
and the ledger alone. A placeholder adds one use, and an embedded builder adds all of its own
uses behind those already there. -/

namespace SqlCompose

theorem Except.bind_eq_ok_iff {ε α β : Type} {x : Except ε α} {f : α → Except ε β} {r : β} :
    (x >>= f) = .ok r ↔ ∃ a, x = .ok a ∧ f a = .ok r := by
  cases x <;> simp [bind, Except.bind]

theorem Except.bind_eq_error_iff {ε α β : Type} {x : Except ε α} {f : α → Except ε β} {e : ε} :
    (x >>= f) = .error e ↔ x = .error e ∨ ∃ a, x = .ok a ∧ f a = .error e := by
  cases x <;> simp [bind, Except.bind]

theorem Attempt.toExcept_eq_ok_iff {a : Attempt} {b : Builder} :
    a.toExcept = .ok b ↔ a = (b, .ok ()) := by
  obtain ⟨b', result⟩ := a
  cases result <;> simp [toExcept]

theorem Attempt.toExcept_eq_error_iff {a : Attempt} {e : SqlError} :
    a.toExcept = .error e ↔ a.2 = .error e := by
  obtain ⟨b, result⟩ := a
  cases result <;> simp [toExcept]

theorem range'_one_append (m n : Nat) :
    List.range' 1 (m + n) = List.range' 1 m ++ (List.range' 1 n).map (· + m) := by
  have shift : (fun i => i + m) = (m + ·) := funext fun i => Nat.add_comm i m
  rw [shift, List.map_add_range', Nat.add_comm m 1, List.range'_append_1]

theorem markerPositions_cons (cell : Cell) (cells : List Cell) :
    markerPositions (cell :: cells) = cell.position?.toList ++ markerPositions cells := by
  cases cell <;> rfl

@[simp] theorem markerPositions_chars (s : Text) : markerPositions (s.map Cell.char) = [] := by
  simp [markerPositions, Cell.position?]

/-- The part of a builder that is about placeholders. -/
structure Binding where
  count : Nat
  ledger : Ledger
  markers : List Nat

namespace Builder

def binding (b : Builder) : Binding :=
  ⟨b.bindCount, b.ledger, markerPositions b.cells.toList⟩

section Text

variable (b : Builder)

@[simp] theorem binding_endLine : b.endLine.binding = b.binding := by
  simp [binding, endLine, markerPositions, Cell.position?]

@[simp] theorem binding_settleBreak : b.settleBreak.binding = b.binding := by
  unfold settleBreak
  split
  · exact binding_endLine b
  · rfl

@[simp] theorem binding_startLine : b.startLine.binding = b.binding := by
  unfold startLine
  split
  · simp [binding]
  · rfl

theorem binding_putCell (cell : Cell) (wordTail : Bool) : (b.putCell cell wordTail).binding =
    { b.binding with markers := b.binding.markers ++ cell.position?.toList } := by
  have settled := (binding_startLine b.settleBreak).trans (binding_settleBreak b)
  simp only [binding, Binding.mk.injEq] at settled
  obtain ⟨count, ledger, markers⟩ := settled
  simp only [binding, putCell, Array.toList_push, markerPositions_append, count, ledger, markers]
  rw [markerPositions_cons]
  simp [markerPositions]

@[simp] theorem binding_putChar (c : Char) : (b.putChar c).binding = b.binding := by
  unfold putChar
  split
  · exact binding_endLine b
  · simp [binding_putCell, Cell.position?]

@[simp] theorem binding_putKept (c : Char) : (b.putKept c).binding = b.binding := by
  simp [putKept, binding_putCell, Cell.position?]

@[simp] theorem binding_append (s : Text) : (b.append s).binding = b.binding := by
  induction s generalizing b with
  | nil => rfl
  | cons c s ih => exact (ih (b.putChar c)).trans (binding_putChar b c)

@[simp] theorem binding_appendKept (s : Text) : (b.appendKept s).binding = b.binding := by
  induction s generalizing b with
  | nil => rfl
  | cons c s ih => exact (ih (b.putKept c)).trans (binding_putKept b c)

@[simp] theorem binding_appendName (s : Text) : (b.appendName s).binding = b.binding := by
  simp only [appendName, binding_append]
  split
  · have settled := binding_settleBreak b
    simp only [binding, Binding.mk.injEq] at settled
    simp only [binding, Array.toList_push, markerPositions_append, settled]
    simp [markerPositions, Cell.position?]
  · exact binding_settleBreak b

@[simp] theorem binding_breakBeforeNext : b.breakBeforeNext.binding = b.binding := by
  unfold breakBeforeNext
  split <;> rfl

@[simp] theorem binding_pushIndent (lead : Lead) : (b.pushIndent lead).binding = b.binding := rfl

@[simp] theorem binding_popIndent : b.popIndent.binding = b.binding := rfl

end Text

/-- The builder has written placeholders for the given uses, in their order, and nothing else
that needs a value. -/
structure Holds (b : Builder) (vs : List BindVariable) : Prop where
  count : b.binding.count = vs.length
  ledger : Ledger.ofUses vs = .ok b.binding.ledger
  markers : b.binding.markers = List.range' 1 vs.length

variable {b b' other : Builder} {v : BindVariable} {vs ws : List BindVariable}

theorem holds_empty (style : PlaceholderStyle) : (empty style).Holds [] :=
  ⟨rfl, rfl, rfl⟩

theorem Holds.of_binding (h : b.Holds vs) (same : b'.binding = b.binding) : b'.Holds vs :=
  ⟨same ▸ h.count, same ▸ h.ledger, same ▸ h.markers⟩

@[simp] theorem binding_putMarker (b : Builder) (position : Nat) :
    (b.putMarker position).binding =
      { b.binding with markers := b.binding.markers ++ [position] } := by
  simp [putMarker, binding_putCell, Cell.position?]

theorem addBind_eq_ok_iff : b.addBind v = (b', .ok ()) ↔
    ∃ l, b.ledger.record v [b.bindCount + 1] = .ok l ∧
      b' = { b with bindCount := b.bindCount + 1, ledger := l } := by
  simp only [addBind]
  cases Ledger.record v [b.bindCount + 1] b.ledger <;> simp [eq_comm]

theorem appendBind_eq_ok_iff : b.appendBind v = (b', .ok ()) ↔
    ∃ c, b.settleBreak.startLine.addBind v = (c, .ok ()) ∧ b' = c.putMarker c.bindCount := by
  simp only [appendBind]
  split
  · next h => simp [h]
  · next h => simp [h, eq_comm]

theorem binding_appendBind (h : b.appendBind v = (b', .ok ())) :
    ∃ l, b.binding.ledger.record v [b.binding.count + 1] = .ok l ∧
      b'.binding = ⟨b.binding.count + 1, l, b.binding.markers ++ [b.binding.count + 1]⟩ := by
  obtain ⟨c, added, rfl⟩ := appendBind_eq_ok_iff.mp h
  obtain ⟨l, recorded, rfl⟩ := addBind_eq_ok_iff.mp added
  have settled := (binding_startLine b.settleBreak).trans (binding_settleBreak b)
  simp only [binding, Binding.mk.injEq] at settled
  obtain ⟨count, ledger, markers⟩ := settled
  rw [count, ledger] at recorded
  refine ⟨l, recorded, ?_⟩
  rw [binding_putMarker]
  simp [binding, count, markers]

theorem Holds.appendBind (h : b.Holds vs) (g : b.appendBind v = (b', .ok ())) :
    b'.Holds (vs ++ [v]) := by
  obtain ⟨l, recorded, same⟩ := binding_appendBind g
  rw [h.count] at recorded
  refine ⟨?_, ?_, ?_⟩
  · simp [same, h.count]
  · rw [same, Ledger.ofUses_concat]
    exact ⟨_, h.ledger, recorded⟩
  · simp [same, h.count, h.markers, range'_one_append, Nat.add_comm 1]

theorem binding_putCopies (offset : Nat) (cells : List Cell) (b : Builder) :
    (cells.foldl (putCopy offset) b).binding =
      { b.binding with
        markers := b.binding.markers ++ (markerPositions cells).map (· + offset) } := by
  induction cells generalizing b with
  | nil => simp [markerPositions]
  | cons cell cells ih =>
    rw [List.foldl_cons, ih, markerPositions_cons]
    cases cell <;> simp [putCopy, Cell.position?]

def withCopy (b other : Builder) : Builder :=
  let c := other.cells.toList.foldl (putCopy b.bindCount) b
  let c := { c with bindCount := c.bindCount + other.bindCount }
  if other.pendingBreak then c.breakBeforeNext else c

theorem embed_eq (b other : Builder) : b.embed other =
    ({ b.withCopy other with
        ledger := ((b.withCopy other).ledger.recordAll
          (other.ledger.map (LedgerEntry.shift b.bindCount))).1 },
      ((b.withCopy other).ledger.recordAll
        (other.ledger.map (LedgerEntry.shift b.bindCount))).2) := by
  simp only [embed, withCopy, Array.foldl_toList]

theorem binding_withCopy (b other : Builder) : (b.withCopy other).binding =
    ⟨b.binding.count + other.binding.count, b.binding.ledger,
      b.binding.markers ++ other.binding.markers.map (· + b.binding.count)⟩ := by
  have copied := binding_putCopies b.bindCount other.cells.toList b
  unfold withCopy
  generalize other.cells.toList.foldl (putCopy b.bindCount) b = c at copied
  simp only [binding, Binding.mk.injEq] at copied
  split
  · rw [binding_breakBeforeNext]
    simp [binding, copied]
  · simp [binding, copied]

theorem binding_embed (h : b.embed other = (b', .ok ())) :
    ∃ l, b.binding.ledger.recordAll
        (other.binding.ledger.map (LedgerEntry.shift b.binding.count)) = (l, .ok ()) ∧
      b'.binding = ⟨b.binding.count + other.binding.count, l,
        b.binding.markers ++ other.binding.markers.map (· + b.binding.count)⟩ := by
  have same := binding_withCopy b other
  rw [embed_eq] at h
  generalize b.withCopy other = c at same h
  simp only [binding, Binding.mk.injEq] at same
  obtain ⟨count, ledger, markers⟩ := same
  obtain ⟨rfl, merged⟩ := Prod.mk.inj h
  refine ⟨(c.ledger.recordAll (other.ledger.map (LedgerEntry.shift b.bindCount))).1, ?_, ?_⟩
  · simp only [binding, ← ledger]
    exact Prod.ext rfl merged
  · simp [binding, count, markers]

theorem Holds.embed (h : b.Holds vs) (g : other.Holds ws) (e : b.embed other = (b', .ok ())) :
    b'.Holds (vs ++ ws) := by
  obtain ⟨l, merged, same⟩ := binding_embed e
  rw [h.count] at merged
  refine ⟨?_, ?_, ?_⟩
  · simp [same, h.count, g.count]
  · rw [same, Ledger.ofUses, Ledger.noteAll_append]
    refine ⟨_, h.ledger, ?_⟩
    rw [Nat.zero_add]
    exact Ledger.noteAll_of_recordAll g.ledger merged
  · simp [same, h.count, h.markers, g.markers, range'_one_append]

end Builder

end SqlCompose
