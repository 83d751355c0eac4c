import Mathlib.Data.List.Perm.Subperm
import SqlCompose.Code.Script
import SqlCompose.Statement
import SqlCompose.Proofs.Binding

/-! What is left of operations that fail. A variable that does not agree with its earlier uses is
refused, but the position that it was to get is spent. Embedding gives positions to all variables
of the other builder and writes their placeholders before the first of them can be refused. So
each position is noted for a variable or lost, and nothing is lost unless a variable is refused. -/

namespace SqlCompose

namespace Ledger

def positions (l : Ledger) : List Nat :=
  l.flatMap LedgerEntry.positions

/-- The entries that merging in a ledger leaves out: the first that is refused, and all behind
it. -/
def unnoted (l : Ledger) : Ledger → Ledger
  | [] => []
  | e :: rest =>
    match l.record e.bind e.positions with
    | .error _ => e :: rest
    | .ok l => unnoted l rest

variable {l l' es : Ledger} {v : BindVariable} {ps : List Nat} {err : SqlError}

theorem positions_record (h : l.record v ps = .ok l') : l'.positions.Perm (l.positions ++ ps) := by
  rcases record_cases h with ⟨-, rfl⟩ | ⟨before, e, after, m, rfl, -, rfl⟩
  · simp [positions]
  · simp only [positions, List.flatMap_append, List.flatMap_cons, List.append_assoc]
    refine List.Perm.append_left _ (List.Perm.append_left _ ?_)
    exact List.perm_append_comm

theorem positions_recordAll (l es : Ledger) :
    (positions (l.recordAll es).1 ++ (l.unnoted es).positions).Perm
      (l.positions ++ es.positions) := by
  induction es generalizing l with
  | nil => simp [recordAll, unnoted]
  | cons e es ih =>
    simp only [recordAll, unnoted]
    cases recorded : l.record e.bind e.positions with
    | error err => exact .refl _
    | ok m =>
      refine (ih m).trans (((positions_record recorded).append_right (positions es)).trans ?_)
      simp [positions]

theorem unnoted_eq_nil (h : (l.recordAll es).2 = .ok ()) : l.unnoted es = [] := by
  induction es generalizing l with
  | nil => rfl
  | cons e es ih =>
    simp only [recordAll, unnoted] at h ⊢
    cases recorded : l.record e.bind e.positions with
    | error err =>
      rw [recorded] at h
      cases h
    | ok m =>
      rw [recorded] at h
      exact ih h

def Used (l : Ledger) : Prop :=
  ∀ e ∈ l, e.positions ≠ []

theorem Used.record (used : l.Used) (some : ps ≠ []) (h : l.record v ps = .ok l') : l'.Used := by
  intro e mem
  rcases record_cases h with ⟨-, rfl⟩ | ⟨before, f, after, m, rfl, -, rfl⟩
  · rcases List.mem_append.mp mem with old | new
    · exact used e old
    · rw [List.mem_singleton.mp new]
      exact some
  · simp only [List.mem_append, List.mem_cons] at mem
    obtain old | rfl | old := mem
    · exact used e (by simp [old])
    · simp [some]
    · exact used e (by simp [old])

theorem Used.recordAll (used : l.Used) (others : es.Used) : Used (l.recordAll es).1 := by
  induction es generalizing l with
  | nil => exact used
  | cons e es ih =>
    simp only [Ledger.recordAll]
    cases recorded : l.record e.bind e.positions with
    | error err => exact used
    | ok m =>
      have first := used.record (others e List.mem_cons_self) recorded
      exact ih first fun f mem => others f (List.mem_cons_of_mem _ mem)

theorem Used.shift (used : es.Used) (n : Nat) : Used (es.map (LedgerEntry.shift n)) := by
  intro e mem
  obtain ⟨f, known, rfl⟩ := List.mem_map.mp mem
  simpa [LedgerEntry.shift] using used f known

theorem positions_unnoted_ne_nil (others : es.Used) (h : (l.recordAll es).2 = .error err) :
    (l.unnoted es).positions ≠ [] := by
  induction es generalizing l with
  | nil => cases h
  | cons e es ih =>
    simp only [Ledger.recordAll, unnoted] at h ⊢
    cases recorded : l.record e.bind e.positions with
    | error err =>
      simp only [positions, List.flatMap_cons]
      exact List.append_ne_nil_of_left_ne_nil (others e List.mem_cons_self) _
    | ok m =>
      rw [recorded] at h
      exact ih (fun f mem => others f (List.mem_cons_of_mem _ mem)) h

theorem positions_shift (n : Nat) (l : Ledger) :
    Ledger.positions (l.map (LedgerEntry.shift n)) = l.positions.map (· + n) := by
  simp [positions, List.flatMap_map, List.map_flatMap, LedgerEntry.shift]

end Ledger

/-- Each position up to the count is noted or lost. The positions that were skipped have no
placeholder; those that were orphaned may have one. -/
structure Binding.Accounts (n : Binding) (skipped orphaned : List Nat) : Prop where
  covered : (n.ledger.positions ++ (skipped ++ orphaned)).Perm (List.range' 1 n.count)
  markers : n.markers.Sublist (List.range' 1 n.count)
  unwritten : ∀ p ∈ skipped, p ∉ n.markers
  used : n.ledger.Used

namespace Binding.Accounts

variable {n m : Binding} {skipped orphaned skipped' orphaned' : List Nat} {l : Ledger}
  {v : BindVariable}

theorem empty : Accounts ⟨0, [], []⟩ [] [] :=
  ⟨.refl _, .refl _, fun _ none => absurd none List.not_mem_nil,
    fun _ none => absurd none List.not_mem_nil⟩

theorem marker_mem (h : n.Accounts skipped orphaned) {p : Nat} (mem : p ∈ n.markers) :
    1 ≤ p ∧ p ≤ n.count := by
  have inside := h.markers.subset mem
  rw [List.mem_range'_1] at inside
  omega

theorem skipped_mem (h : n.Accounts skipped orphaned) {p : Nat} (mem : p ∈ skipped) :
    1 ≤ p ∧ p ≤ n.count := by
  have inside := h.covered.subset (List.mem_append_right _ (List.mem_append_left orphaned mem))
  rw [List.mem_range'_1] at inside
  omega

theorem markers_next (h : n.Accounts skipped orphaned) :
    n.markers.Sublist (List.range' 1 (n.count + 1)) := by
  rw [Ledger.Sound.range'_succ_count]
  exact h.markers.trans (List.sublist_append_left _ _)

theorem note (h : n.Accounts skipped orphaned)
    (recorded : n.ledger.record v [n.count + 1] = .ok l) :
    Accounts ⟨n.count + 1, l, n.markers⟩ skipped orphaned ∧
      Accounts ⟨n.count + 1, l, n.markers ++ [n.count + 1]⟩ skipped orphaned := by
  have covered : (l.positions ++ (skipped ++ orphaned)).Perm (List.range' 1 (n.count + 1)) := by
    rw [Ledger.Sound.range'_succ_count]
    refine List.Perm.trans ?_ (h.covered.append_right [n.count + 1])
    refine ((Ledger.positions_record recorded).append_right _).trans ?_
    rw [List.append_assoc, List.append_assoc]
    exact List.Perm.append_left _ List.perm_append_comm
  have used := h.used.record (List.cons_ne_nil _ _) recorded
  refine ⟨⟨covered, h.markers_next, h.unwritten, used⟩, covered, ?_, fun p skip => ?_, used⟩
  · rw [Ledger.Sound.range'_succ_count]
    exact h.markers.append (.refl _)
  · have bound := (h.skipped_mem skip).2
    simp only [List.mem_append, List.mem_singleton, not_or]
    exact ⟨h.unwritten p skip, by omega⟩

theorem skip (h : n.Accounts skipped orphaned) :
    Accounts ⟨n.count + 1, n.ledger, n.markers⟩ (skipped ++ [n.count + 1]) orphaned := by
  refine ⟨?_, h.markers_next, fun p skip written => ?_, h.used⟩
  · rw [Ledger.Sound.range'_succ_count]
    refine List.Perm.trans ?_ (h.covered.append_right [n.count + 1])
    simp only [List.append_assoc]
    refine List.Perm.append_left _ (List.Perm.append_left _ ?_)
    exact List.perm_append_comm
  · have bound := (h.marker_mem written).2
    rcases List.mem_append.mp skip with before | last
    · exact h.unwritten p before written
    · rw [List.mem_singleton.mp last] at bound
      omega

theorem length_markers_le (h : n.Accounts skipped orphaned) :
    n.markers.length ≤ n.ledger.positions.length + orphaned.length := by
  have given : (List.range' 1 n.count).Nodup := List.nodup_range'
  have lost : skipped.Nodup :=
    ((h.covered.nodup_iff.mpr given).of_append_right).of_append_left
  have apart : (n.markers ++ skipped).Nodup := by
    refine List.nodup_append.mpr ⟨h.markers.nodup given, lost, fun p written q skip same => ?_⟩
    exact h.unwritten q skip (same ▸ written)
  have inside : n.markers ++ skipped ⊆ List.range' 1 n.count := by
    refine List.append_subset.mpr ⟨h.markers.subset, fun p skip => ?_⟩
    exact h.covered.subset (by simp [skip])
  have bound := (apart.subperm inside).length_le
  have total := h.covered.length_eq
  simp only [List.length_append] at bound total
  omega

theorem merge (h : n.Accounts skipped orphaned) (g : m.Accounts skipped' orphaned') :
    Accounts
      ⟨n.count + m.count, (n.ledger.recordAll (m.ledger.map (LedgerEntry.shift n.count))).1,
        n.markers ++ m.markers.map (· + n.count)⟩
      (skipped ++ skipped'.map (· + n.count))
      (orphaned ++ (orphaned'.map (· + n.count) ++
        (n.ledger.unnoted (m.ledger.map (LedgerEntry.shift n.count))).positions)) := by
  have merged := Ledger.positions_recordAll n.ledger (m.ledger.map (LedgerEntry.shift n.count))
  have used := h.used.recordAll (g.used.shift n.count)
  rw [Ledger.positions_shift] at merged
  generalize n.ledger.recordAll (m.ledger.map (LedgerEntry.shift n.count)) = noted
    at merged used ⊢
  generalize n.ledger.unnoted (m.ledger.map (LedgerEntry.shift n.count)) = left at merged ⊢
  refine ⟨?_, ?_, fun p skip => ?_, used⟩
  · rw [range'_one_append]
    refine List.Perm.trans ?_ (h.covered.append (g.covered.map (· + n.count)))
    refine List.perm_iff_count.mpr fun p => ?_
    have counted := merged.count_eq p
    simp only [List.map_append, List.count_append] at counted ⊢
    omega
  · rw [range'_one_append]
    exact h.markers.append (g.markers.map _)
  · simp only [List.mem_append, List.mem_map, not_or] at skip ⊢
    obtain skip | ⟨q, skip, rfl⟩ := skip
    · have bound := (h.skipped_mem skip).2
      refine ⟨h.unwritten p skip, ?_⟩
      rintro ⟨q, written, rfl⟩
      have positive := (g.marker_mem written).1
      omega
    · have positive := (g.skipped_mem skip).1
      refine ⟨fun written => ?_, ?_⟩
      · have bound := (h.marker_mem written).2
        omega
      · rintro ⟨r, written, same⟩
        exact g.unwritten q skip (Nat.add_right_cancel same ▸ written)

end Binding.Accounts

namespace Builder

section Steps

variable {b c : Builder} {v : BindVariable} {e : SqlError}

@[simp] theorem binding_appendAround (b : Builder) (offset : Nat) (rest : Text)
    (ranges : List ByteRange) : (b.appendAround offset rest ranges).binding = b.binding := by
  induction ranges generalizing b offset rest with
  | nil => exact binding_append b rest
  | cons r ranges ih => simp [appendAround, ih]

@[simp] theorem binding_wrapKeeping (b : Builder) (s : Text) (ranges : List ByteRange)
    (extra : Nat) : (b.wrapKeeping s ranges extra).binding = b.binding := by
  simp [wrapKeeping]

theorem binding_addBind (h : b.addBind v = (c, .ok ())) :
    ∃ l, b.binding.ledger.record v [b.binding.count + 1] = .ok l ∧
      c.binding = ⟨b.binding.count + 1, l, b.binding.markers⟩ := by
  obtain ⟨l, recorded, rfl⟩ := addBind_eq_ok_iff.mp h
  exact ⟨l, recorded, rfl⟩

theorem binding_addBind_error (h : b.addBind v = (c, .error e)) :
    c.binding = ⟨b.binding.count + 1, b.binding.ledger, b.binding.markers⟩ := by
  simp only [addBind] at h
  split at h
  · cases h
    rfl
  · cases h

theorem binding_appendBind_error (h : b.appendBind v = (c, .error e)) :
    c.binding = ⟨b.binding.count + 1, b.binding.ledger, b.binding.markers⟩ := by
  have settled := (binding_startLine b.settleBreak).trans (binding_settleBreak b)
  simp only [appendBind] at h
  split at h
  · next refused =>
    cases h
    rw [binding_addBind_error refused, settled]
  · cases h

theorem binding_embed_fst (b other : Builder) : (b.embed other).1.binding =
    ⟨b.binding.count + other.binding.count,
      (b.binding.ledger.recordAll
        (other.binding.ledger.map (LedgerEntry.shift b.binding.count))).1,
      b.binding.markers ++ other.binding.markers.map (· + b.binding.count)⟩ := by
  have same := binding_withCopy b other
  rw [embed_eq]
  generalize b.withCopy other = c at same ⊢
  simp only [binding, Binding.mk.injEq] at same ⊢
  obtain ⟨count, ledger, markers⟩ := same
  exact ⟨count, by rw [ledger], markers⟩

theorem embed_snd (b other : Builder) : (b.embed other).2 =
    (b.ledger.recordAll (other.ledger.map (LedgerEntry.shift b.bindCount))).2 := by
  have same := congrArg Binding.ledger (binding_withCopy b other)
  rw [embed_eq]
  exact congrArg (fun l : Ledger => (l.recordAll _).2) same

end Steps

end Builder

def BuilderOp.isText : BuilderOp → Bool
  | .addBind _ | .appendBind _ | .wrapped .. | .apply _ | .embed .. => false
  | _ => true

namespace Builder

/-- The builders that operations lead to, failed operations among them, with the positions that
these have lost: `skipped` by variables that were refused, `orphaned` by embedding. -/
inductive Reached : Builder → List Nat → List Nat → Prop where
  | empty (style : PlaceholderStyle) : Reached (empty style) [] []
  | text {b : Builder} {skipped orphaned : List Nat} (h : Reached b skipped orphaned)
      (op : BuilderOp) (text : op.isText = true) : Reached (op.run b).1 skipped orphaned
  | noted {b c : Builder} {v : BindVariable} {skipped orphaned : List Nat}
      (h : Reached b skipped orphaned)
      (done : b.addBind v = (c, .ok ()) ∨ b.appendBind v = (c, .ok ())) :
      Reached c skipped orphaned
  | refused {b c : Builder} {v : BindVariable} {e : SqlError} {skipped orphaned : List Nat}
      (h : Reached b skipped orphaned)
      (failed : b.addBind v = (c, .error e) ∨ b.appendBind v = (c, .error e)) :
      Reached c (skipped ++ [b.bindCount + 1]) orphaned
  | embed {b other : Builder} {skipped orphaned skipped' orphaned' : List Nat}
      (h : Reached b skipped orphaned) (g : Reached other skipped' orphaned') :
      Reached (b.embed other).1 (skipped ++ skipped'.map (· + b.bindCount))
        (orphaned ++ (orphaned'.map (· + b.bindCount) ++
          (b.ledger.unnoted (other.ledger.map (LedgerEntry.shift b.bindCount))).positions))

variable {b other : Builder} {skipped orphaned skipped' orphaned' : List Nat}

theorem binding_run_of_isText (b : Builder) {op : BuilderOp} (text : op.isText = true) :
    (op.run b).1.binding = b.binding := by
  cases op with
  | addBind | appendBind | wrapped | apply | embed => cases text
  | _ => simp [BuilderOp.run, appendInt, wrap]

theorem Reached.accounts (h : b.Reached skipped orphaned) :
    b.binding.Accounts skipped orphaned := by
  induction h with
  | empty style => exact .empty
  | text h op text ih =>
    rw [binding_run_of_isText _ text]
    exact ih
  | noted h done ih =>
    obtain added | written := done
    · obtain ⟨l, recorded, same⟩ := binding_addBind added
      exact same ▸ (ih.note recorded).1
    · obtain ⟨l, recorded, same⟩ := binding_appendBind written
      exact same ▸ (ih.note recorded).2
  | refused h failed ih =>
    obtain failed | failed := failed
    · exact binding_addBind_error failed ▸ ih.skip
    · exact binding_appendBind_error failed ▸ ih.skip
  | embed h g ih ih' =>
    rw [binding_embed_fst]
    exact ih.merge ih'

/-- What an operation, or a sequence of them, makes of a builder that was reached: one with
further losses, and without any if all went well. -/
def LeadsOn (skipped orphaned : List Nat) (a : Attempt) : Prop :=
  ∃ skips orphans, a.1.Reached (skipped ++ skips) (orphaned ++ orphans) ∧
    (a.2 = .ok () → skips = [] ∧ orphans = [])

theorem Reached.leadsOn {result : Except SqlError Unit} (h : b.Reached skipped orphaned) :
    LeadsOn skipped orphaned (b, result) :=
  ⟨[], [], by simpa using h, fun _ => ⟨rfl, rfl⟩⟩

theorem Reached.leadsOn_bind {v : BindVariable} {a : Attempt} (h : b.Reached skipped orphaned)
    (bound : b.addBind v = a ∨ b.appendBind v = a) : LeadsOn skipped orphaned a := by
  obtain ⟨c, result⟩ := a
  cases result with
  | ok done => exact (h.noted bound).leadsOn
  | error e => exact ⟨[b.bindCount + 1], [], by simpa using h.refused bound, nofun⟩

theorem Reached.leadsOn_embed (h : b.Reached skipped orphaned) (g : other.Reached [] []) :
    LeadsOn skipped orphaned (b.embed other) := by
  refine ⟨_, _, h.embed g, fun done => ⟨rfl, ?_⟩⟩
  rw [embed_snd] at done
  simp [Ledger.unnoted_eq_nil done, Ledger.positions]

mutual

theorem Reached.run {b : Builder} {skipped orphaned : List Nat}
    (h : b.Reached skipped orphaned) :
    (op : BuilderOp) → LeadsOn skipped orphaned (op.run b)
  | .append s => (h.text (.append s) rfl).leadsOn
  | .appendInt n => (h.text (.appendInt n) rfl).leadsOn
  | .appendName s => (h.text (.appendName s) rfl).leadsOn
  | .appendKept s => (h.text (.appendKept s) rfl).leadsOn
  | .endLine => (h.text .endLine rfl).leadsOn
  | .breakBeforeNext => (h.text .breakBeforeNext rfl).leadsOn
  | .pushIndent lead => (h.text (.pushIndent lead) rfl).leadsOn
  | .popIndent => (h.text .popIndent rfl).leadsOn
  | .wrap s extra => (h.text (.wrap s extra) rfl).leadsOn
  | .wrapKeeping s ranges extra => (h.text (.wrapKeeping s ranges extra) rfl).leadsOn
  | .addBind _ => h.leadsOn_bind (.inl rfl)
  | .appendBind _ => h.leadsOn_bind (.inr rfl)
  | .wrapped extra ops => by
    have pushed := h.text (.pushIndent (wrapLead extra)) rfl
    obtain ⟨skips, orphans, inner, whole⟩ := pushed.runAll ops
    exact ⟨skips, orphans, inner.text .popIndent rfl, whole⟩
  | .apply ops => h.runAll ops
  | .embed style ops => by
    obtain ⟨skips, orphans, inner, whole⟩ := (Reached.empty (style.getD b.style)).runAll ops
    simp only [BuilderOp.run]
    split
    · exact h.leadsOn
    · next c ran =>
      rw [ran] at inner whole
      obtain ⟨rfl, rfl⟩ := whole rfl
      exact h.leadsOn_embed inner
  | .refused _ => h.leadsOn

theorem Reached.runAll {b : Builder} {skipped orphaned : List Nat}
    (h : b.Reached skipped orphaned) :
    (ops : List BuilderOp) → LeadsOn skipped orphaned (BuilderOp.runAll b ops)
  | [] => h.leadsOn
  | op :: ops => by
    obtain ⟨skips, orphans, first, whole⟩ := h.run op
    simp only [BuilderOp.runAll]
    split
    · next c e ran =>
      rw [ran] at first
      exact ⟨skips, orphans, first, nofun⟩
    · next c ran =>
      rw [ran] at first whole
      obtain ⟨rfl, rfl⟩ := whole rfl
      simp only [List.append_nil] at first
      exact first.runAll ops

end

variable {e : SqlError}

/-- Where builders can fail, the positions that are noted are not all those that were given out.
Each position is noted or was lost by an operation that failed, and none are missing exactly if
nothing was lost. The placeholders are numbered upwards, and there is none for a position that
was skipped; those of an embedded builder stay even if its variables are refused. Whatever has
failed, further operations go on with the numbering, and those that succeed lose nothing. -/
theorem Reached.numbered_or_lost (h : b.Reached skipped orphaned) :
    let noted := b.finish.binds.flatMap BindWithPosition.positions
    let markers := markerPositions b.finish.code
    (noted ++ (skipped ++ orphaned)).Perm (List.range' 1 b.bindCount) ∧
    (noted.Perm (List.range' 1 b.bindCount) ↔ skipped = [] ∧ orphaned = []) ∧
    markers.Sublist (List.range' 1 b.bindCount) ∧
    (∀ p ∈ skipped, p ∉ markers) ∧
    markers.length ≤ noted.length + orphaned.length ∧
    (∀ op, LeadsOn skipped orphaned (BuilderOp.run b op)) ∧
    (∀ other skipped' orphaned' e, other.Reached skipped' orphaned' →
      (b.embed other).2 = .error e →
      (b.ledger.unnoted (other.ledger.map (LedgerEntry.shift b.bindCount))).positions ≠ []) := by
  have own := h.accounts
  have listed : b.finish.binds.flatMap BindWithPosition.positions = b.ledger.positions := by
    simp [Statement.binds, finish, List.flatMap_map, LedgerEntry.withPosition, Ledger.positions]
  simp only [listed]
  refine ⟨own.covered, ⟨fun all => ?_, ?_⟩, own.markers, own.unwritten, own.length_markers_le,
    h.run, fun other skipped' orphaned' e g failed => ?_⟩
  · have lost : (skipped ++ orphaned).length = 0 := by
      have total := own.covered.length_eq.trans all.length_eq.symm
      simp only [binding, List.length_append] at total ⊢
      omega
    exact List.append_eq_nil_iff.mp (List.length_eq_zero_iff.mp lost)
  · rintro ⟨rfl, rfl⟩
    simpa [binding] using own.covered
  · rw [embed_snd] at failed
    exact Ledger.positions_unnoted_ne_nil (g.accounts.used.shift b.bindCount) failed

def bindSample (type : TypeTag) : Attempt :=
  (empty .question).appendBind (.unvalued ⟨"D", by decide⟩ type)

def refusedSample : Attempt :=
  ((bindSample .int).1.appendBind (.unvalued ⟨"D", by decide⟩ .text)).1.embed
    (bindSample .text).1

theorem reached_bindSample (type : TypeTag) : (bindSample type).1.Reached [] [] :=
  (Reached.empty .question).noted (.inr rfl)

theorem reached_refusedSample : refusedSample.1.Reached [2] [3] := by
  have failed : ((bindSample .int).1.appendBind (.unvalued ⟨"D", by decide⟩ .text)).2 =
      .error (.typeConflict "D".toList .int .text) := rfl
  exact ((reached_bindSample .int).refused (.inr (Prod.ext rfl failed))).embed
    (reached_bindSample .text)

/-- The text `??` has one position that is noted. -/
theorem Reached.numbered_or_lost_sample :
    refusedSample.1.Reached [2] [3] ∧
    refusedSample.1.finish.binds.flatMap BindWithPosition.positions = [1] ∧
    refusedSample.1.bindCount = 3 ∧
    markerPositions refusedSample.1.finish.code = [1, 3] ∧
    [1, 2, 3].Perm (List.range' 1 3) ∧
    LeadsOn [2] [3] (refusedSample.1.appendBind (.unvalued ⟨"D", by decide⟩ .int)) :=
  have own := reached_refusedSample.numbered_or_lost
  ⟨reached_refusedSample, rfl, rfl, rfl, own.1, own.2.2.2.2.2.1 (.appendBind _)⟩

end Builder

end SqlCompose
