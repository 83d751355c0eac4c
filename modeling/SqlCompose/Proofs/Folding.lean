import SqlCompose.Proofs.Scripts
import SqlCompose.Proofs.Templates

/-! Embedding in steps. A builder that is embedded into a second one, and with it into a third, is
written as if it were embedded behind the second one directly: its positions move twice, its
variables are merged in another grouping, and a break that it owes is owed behind it. So a template
of two arguments that is folded over more of them writes them one after the other. -/

namespace SqlCompose

namespace Builder

variable {b c d s a : Builder}

theorem Alone.copyText_copyText (h : s.Alone) (regular : a.Regular) (l : Ledger) :
    ((b.copyText s).withBinding (b.bindCount + s.bindCount) l).copyText a =
      (b.copyText (s.copyText a)).withBinding (b.bindCount + s.bindCount) l := by
  have cells := h.copyText_copies (b := b) s.bindCount a.cells.toList
  rw [copyText.eq_1 s a, copyText.eq_1 _ a]
  cases owing : a.pendingBreak with
  | false =>
    simp only [Bool.false_eq_true, if_false, cells]
    exact withBinding_copies _ _ l _ _
  | true =>
    have written : (a.cells.toList.foldl (Builder.putCopy s.bindCount) s).cells.toList ≠ [] :=
      cells_copies_ne_nil _ (.inr (regular.written (regular.owing owing)))
    simp only [if_true]
    rw [(h.copies _ _).copyText_breakBeforeNext written, cells, ← withBinding_breakBeforeNext]
    exact congrArg Builder.breakBeforeNext (withBinding_copies _ _ l _ _)

theorem embed_embed (h : s.Alone) (regular : a.Regular) :
    (∃ s', s.embed a = (s', .ok ()) ∧ b.embed s' = (d, .ok ())) ↔
      ∃ c, b.embed s = (c, .ok ()) ∧ c.embed a = (d, .ok ()) := by
  have ledgers : ∀ l,
      (∃ k, s.ledger.recordAll (a.ledger.map (LedgerEntry.shift s.bindCount)) = (k, .ok ()) ∧
        b.ledger.recordAll (k.map (LedgerEntry.shift b.bindCount)) = (l, .ok ())) ↔
      ∃ m, b.ledger.recordAll (s.ledger.map (LedgerEntry.shift b.bindCount)) = (m, .ok ()) ∧
        m.recordAll (a.ledger.map (LedgerEntry.shift (b.bindCount + s.bindCount))) =
          (l, .ok ()) :=
    fun _ => Ledger.recordAll_shift_recordAll_iff h.distinct
  have text : ∀ m l k : Ledger,
      (((b.copyText s).withBinding (b.bindCount + s.bindCount) m).copyText a).withBinding
          (b.bindCount + s.bindCount + a.bindCount) l =
        (b.copyText ((s.copyText a).withBinding (s.bindCount + a.bindCount) k)).withBinding
          (b.bindCount + (s.bindCount + a.bindCount)) l := by
    intro m l k
    rw [h.copyText_copyText regular, Nat.add_assoc]
    rfl
  simp only [embed_eq_ok_iff]
  constructor
  · rintro ⟨_, ⟨k, inner, rfl⟩, l, merged, rfl⟩
    obtain ⟨m, first, second⟩ := (ledgers l).mp ⟨k, inner, merged⟩
    exact ⟨_, ⟨m, first, rfl⟩, l, second, (text m l k).symm⟩
  · rintro ⟨_, ⟨m, first, rfl⟩, l, second, rfl⟩
    obtain ⟨k, inner, merged⟩ := (ledgers l).mpr ⟨m, first, second⟩
    exact ⟨_, ⟨k, inner, rfl⟩, l, merged, text m l k⟩

theorem Alone.append (h : s.Alone) (t : Text) : (s.append t).Alone := by
  rw [append_eq_copies]
  exact h.copies 0 _

theorem Alone.embed (h : s.Alone) (e : s.embed a = (d, .ok ())) : d.Alone := by
  obtain ⟨l, merged, rfl⟩ := embed_eq_ok_iff.mp e
  refine Alone.withBinding ?_ _ (Ledger.nodup_names_recordAll h.distinct merged)
  rw [copyText]
  split
  · exact (h.copies _ _).breakBeforeNext
  · exact h.copies _ _

theorem Alone.regular (h : s.Alone) : s.Regular :=
  ⟨h.owing, h.written_of_inLine⟩

def embedBehind (sep : Text) (b : Builder) : List Builder → Except SqlError Builder
  | [] => .ok b
  | arg :: rest => do embedBehind sep (← ((b.append sep).embed arg).toExcept) rest

/-- Embeds builders one after the other, with the text `sep` between neighbours. -/
def embedBetween (sep : Text) (b : Builder) : List Builder → Except SqlError Builder
  | [] => .ok b
  | first :: rest => do embedBehind sep (← (b.embed first).toExcept) rest

/-- The entries of the ledgers, as they are noted if the builders are embedded one after the other
behind `offset` placeholders. -/
def entriesBehind (offset : Nat) : List Builder → List LedgerEntry
  | [] => []
  | arg :: rest =>
    arg.ledger.map (LedgerEntry.shift offset) ++ entriesBehind (offset + arg.bindCount) rest

section Rows

variable {sep : Text} {args : List Builder}

theorem embedBehind_cons_eq_ok_iff {arg : Builder} :
    embedBehind sep b (arg :: args) = .ok d ↔
      ∃ c, (b.append sep).embed arg = (c, .ok ()) ∧ embedBehind sep c args = .ok d := by
  simp only [embedBehind, Except.bind_eq_ok_iff, Attempt.toExcept_eq_ok_iff]

theorem embedBetween_cons_eq_ok_iff {first : Builder} :
    embedBetween sep b (first :: args) = .ok d ↔
      ∃ c, b.embed first = (c, .ok ()) ∧ embedBehind sep c args = .ok d := by
  simp only [embedBetween, Except.bind_eq_ok_iff, Attempt.toExcept_eq_ok_iff]

theorem embedBetween_eq_ok_iff_pair {first next : Builder} :
    embedBetween sep b (first :: next :: args) = .ok d ↔
      ∃ c, embedBetween sep b [first, next] = .ok c ∧ embedBehind sep c args = .ok d := by
  simp only [embedBetween_cons_eq_ok_iff, embedBehind_cons_eq_ok_iff]
  constructor
  · rintro ⟨f, front, c, second, rest⟩
    exact ⟨c, ⟨f, front, c, second, rfl⟩, rest⟩
  · rintro ⟨c, ⟨f, front, e, second, last⟩, rest⟩
    obtain rfl := Except.ok.inj last
    exact ⟨f, front, e, second, rest⟩

theorem embed_embedBehind (h : s.Alone) (regular : ∀ arg ∈ args, arg.Regular) :
    (∃ s', embedBehind sep s args = .ok s' ∧ b.embed s' = (d, .ok ())) ↔
      ∃ c, b.embed s = (c, .ok ()) ∧ embedBehind sep c args = .ok d := by
  induction args generalizing s with
  | nil => simp [embedBehind]
  | cons arg args ih =>
    have later := fun x mem => regular x (List.mem_cons_of_mem arg mem)
    have here := fun c => embed_embed (b := b) (d := c) (h.append sep) (regular arg (by simp))
    simp only [embedBehind_cons_eq_ok_iff]
    constructor
    · rintro ⟨s', ⟨t, first, rest⟩, embedded⟩
      obtain ⟨c, inner, behind⟩ :=
        (ih ((h.append sep).embed first) later).mp ⟨s', rest, embedded⟩
      obtain ⟨e, separated, first⟩ := (here c).mp ⟨t, first, inner⟩
      obtain ⟨f, front, rfl⟩ := (embed_append h sep).mp separated
      exact ⟨f, front, c, first, behind⟩
    · rintro ⟨f, front, c, first, behind⟩
      have separated := (embed_append h sep).mpr ⟨f, front, rfl⟩
      obtain ⟨t, first, inner⟩ := (here c).mpr ⟨_, separated, first⟩
      obtain ⟨s', rest, embedded⟩ :=
        (ih ((h.append sep).embed first) later).mpr ⟨c, inner, behind⟩
      exact ⟨s', ⟨t, first, rest⟩, embedded⟩

theorem Alone.embedBehind (h : s.Alone) (e : Builder.embedBehind sep s args = .ok d) :
    d.Alone := by
  induction args generalizing s with
  | nil =>
    obtain rfl := Except.ok.inj e
    exact h
  | cons arg args ih =>
    obtain ⟨c, first, rest⟩ := embedBehind_cons_eq_ok_iff.mp e
    exact ih ((h.append sep).embed first) rest

theorem embed_embedBetween {first : Builder} (own : first.Regular)
    (regular : ∀ arg ∈ args, arg.Regular) :
    (∃ s, embedBetween sep (empty b.style) (first :: args) = .ok s ∧ b.embed s = (d, .ok ())) ↔
      embedBetween sep b (first :: args) = .ok d := by
  have fresh := alone_empty b.style
  have here := fun c => embed_embed (b := b) (d := c) fresh own
  simp only [BuilderOp.embed_empty, Prod.mk.injEq, and_true, exists_eq_left'] at here
  simp only [embedBetween_cons_eq_ok_iff]
  constructor
  · rintro ⟨s', ⟨s, inner, rest⟩, embedded⟩
    obtain ⟨c, front, behind⟩ :=
      (embed_embedBehind (fresh.embed inner) regular).mp ⟨s', rest, embedded⟩
    exact ⟨c, (here c).mp ⟨s, inner, front⟩, behind⟩
  · rintro ⟨c, front, behind⟩
    obtain ⟨s, inner, front⟩ := (here c).mpr front
    obtain ⟨s', rest, embedded⟩ :=
      (embed_embedBehind (fresh.embed inner) regular).mpr ⟨c, front, behind⟩
    exact ⟨s', ⟨s, inner, rest⟩, embedded⟩

theorem exists_embedBehind (sep : Text) {l : Ledger}
    (merged : b.ledger.recordAll (entriesBehind b.bindCount args) = (l, .ok ())) :
    ∃ d, embedBehind sep b args = .ok d ∧ d.ledger = l ∧
      d.bindCount = b.bindCount + (args.map bindCount).sum := by
  induction args generalizing b with
  | nil => exact ⟨b, rfl, (Prod.mk.inj merged).1, rfl⟩
  | cons arg args ih =>
    obtain ⟨m, first, rest⟩ := Ledger.recordAll_append.mp merged
    have same := binding_append b sep
    simp only [binding, Binding.mk.injEq] at same
    obtain ⟨count, ledger, -⟩ := same
    rw [← count, ← ledger] at first
    rw [← count] at rest
    obtain ⟨d, behind, last, total⟩ :=
      ih (b := ((b.append sep).copyText arg).withBinding _ m) rest
    refine ⟨d, embedBehind_cons_eq_ok_iff.mpr
      ⟨_, embed_eq_ok_iff.mpr ⟨m, first, rfl⟩, behind⟩, last, ?_⟩
    rw [total, ← count, List.map_cons, List.sum_cons, ← Nat.add_assoc]
    rfl

theorem Alone.embedBetween (h : s.Alone) (e : Builder.embedBetween sep s args = .ok d) :
    d.Alone := by
  cases args with
  | nil =>
    obtain rfl := Except.ok.inj e
    exact h
  | cons first args =>
    obtain ⟨c, front, rest⟩ := embedBetween_cons_eq_ok_iff.mp e
    exact (h.embed front).embedBehind rest

theorem exists_embedBetween (sep : Text) {l : Ledger}
    (merged : b.ledger.recordAll (entriesBehind b.bindCount args) = (l, .ok ())) :
    ∃ d, embedBetween sep b args = .ok d ∧ d.ledger = l ∧
      d.bindCount = b.bindCount + (args.map bindCount).sum := by
  cases args with
  | nil => exact ⟨b, rfl, (Prod.mk.inj merged).1, rfl⟩
  | cons first args =>
    obtain ⟨m, front, rest⟩ := Ledger.recordAll_append.mp merged
    obtain ⟨d, behind, last, total⟩ :=
      exists_embedBehind (b := (b.copyText first).withBinding _ m) sep rest
    refine ⟨d, embedBetween_cons_eq_ok_iff.mpr
      ⟨_, embed_eq_ok_iff.mpr ⟨m, front, rfl⟩, behind⟩, last, ?_⟩
    rw [total, List.map_cons, List.sum_cons, ← Nat.add_assoc]
    rfl

end Rows

end Builder

namespace Template

open Builder

variable {name sep : Text} {b d : Builder} {ts : List TemplateSlot} {args : List Builder}

/-- The template that is the first argument, a text, and the second argument. -/
def pair (sep : Text) : Text :=
  ['\x7b', '0', '\x7d'] ++ (sep ++ ['\x7b', '1', '\x7d'])

theorem slots_pair (text : '\x7b' ∉ sep) :
    slots (pair sep) = .argument 0 :: (textSlot sep ++ [.argument 1]) := by
  have ending : slots [] = [] := by decide +kernel
  have zero : group [] ['0'] = [.argument 0] := by decide +kernel
  have one : group sep ['1'] = textSlot sep ++ [.argument 1] := by
    have read : readSlot ['1'] = some (.argument 1) := by decide +kernel
    rw [group, read]
  have second : slots (sep ++ ['\x7b', '1', '\x7d']) = group sep ['1'] ++ slots [] :=
    slots_group text (show '\x7d' ∉ ['1'] by decide)
  have first : slots (pair sep) = group [] ['0'] ++ slots (sep ++ ['\x7b', '1', '\x7d']) :=
    slots_group List.not_mem_nil (show '\x7d' ∉ ['0'] by decide)
  rw [first, second, zero, one, ending, List.append_nil]
  rfl

theorem isBinary_pair (text : '\x7b' ∉ sep) : isBinary (slots (pair sep)) = true := by
  rw [slots_pair text, textSlot]
  split <;> simp [isBinary]

theorem fill_pair (text : '\x7b' ∉ sep) (first second : Builder) :
    fill name [first, second] b (slots (pair sep)) = embedBetween sep b [first, second] := by
  rw [slots_pair text, textSlot]
  split
  · next empty =>
    have same : ∀ c : Builder, c.append sep = c := fun c => by rw [empty]; rfl
    simp only [fill, embedBetween, embedBehind, same, List.nil_append, List.getElem?_cons_zero,
      List.getElem?_cons_succ]
  · simp only [fill, embedBetween, embedBehind, List.singleton_append, List.getElem?_cons_zero,
      List.getElem?_cons_succ]

theorem embed_foldLeft (two : ∀ x y c, fill name [x, y] c ts = embedBetween sep c [x, y])
    {first : Builder} (own : first.Regular) (regular : ∀ arg ∈ args, arg.Regular) :
    (∃ s, foldLeft name ts b.style first args = .ok s ∧ b.embed s = (d, .ok ())) ↔
      embedBetween sep b (first :: args) = .ok d := by
  induction args generalizing first with
  | nil =>
    simp only [foldLeft, Except.ok.injEq, exists_eq_left', embedBetween_cons_eq_ok_iff,
      embedBehind, exists_eq_right]
  | cons next args ih =>
    have later := fun x mem => regular x (List.mem_cons_of_mem next mem)
    have joined : ∀ c,
        (∃ acc, embedBetween sep (empty b.style) [first, next] = .ok acc ∧
          b.embed acc = (c, .ok ())) ↔ embedBetween sep b [first, next] = .ok c :=
      fun _ => embed_embedBetween own (by simpa using regular next (by simp))
    have alone : ∀ {acc}, embedBetween sep (empty b.style) [first, next] = .ok acc → acc.Alone :=
      (alone_empty b.style).embedBetween
    rw [embedBetween_eq_ok_iff_pair]
    simp only [foldLeft, two, Except.bind_eq_ok_iff]
    constructor
    · rintro ⟨s, ⟨acc, filled, folded⟩, embedded⟩
      have whole := (ih (alone filled).regular later).mp ⟨s, folded, embedded⟩
      obtain ⟨c, front, rest⟩ := embedBetween_cons_eq_ok_iff.mp whole
      exact ⟨c, (joined c).mp ⟨acc, filled, front⟩, rest⟩
    · rintro ⟨c, written, rest⟩
      obtain ⟨acc, filled, front⟩ := (joined c).mpr written
      have whole := embedBetween_cons_eq_ok_iff.mpr ⟨c, front, rest⟩
      obtain ⟨s, folded, embedded⟩ := (ih (alone filled).regular later).mpr whole
      exact ⟨s, ⟨acc, filled, folded⟩, embedded⟩

theorem apply_pair_eq_ok_iff (text : '\x7b' ∉ sep) (regular : ∀ arg ∈ args, arg.Regular)
    (two : 2 ≤ args.length) :
    apply name (pair sep) args b = .ok d ↔ embedBetween sep b args = .ok d := by
  simp only [apply, isBinary_pair text, Bool.true_and, decide_eq_true_eq]
  split
  · cases args with
    | nil => simp at two
    | cons first rest =>
      have later := fun x mem => regular x (List.mem_cons_of_mem first mem)
      have pairs : ∀ x y c, fill name [x, y] c (slots (pair sep)) = embedBetween sep c [x, y] :=
        fun x y _ => fill_pair text x y
      have whole := embed_foldLeft (b := b) (d := d) pairs (regular first (by simp)) later
      simpa only [Except.bind_eq_ok_iff, Attempt.toExcept_eq_ok_iff] using whole
  · obtain ⟨first, second, rfl⟩ := List.length_eq_two.mp (show args.length = 2 by omega)
    rw [fill_pair text]

/-- A template that is two arguments around a text without braces does with two or more arguments
what it does to embed them one after the other, with the text between them: both fail, or both lead
to the same builder, so text, variables, positions and the break that is owed are the same. They
succeed if the variables of each argument agree with those before it. Any script may have made the
arguments, as it does for those of a call (`Expr.isScripted_writeArgs`). -/
theorem apply_between (sep : Text) (text : '\x7b' ∉ sep) (name : Text) (b : Builder)
    {args : List Builder} (scripted : ∀ arg ∈ args, arg.IsScripted b.style)
    (two : 2 ≤ args.length) :
    (∀ c, apply name (pair sep) args b = .ok c ↔ embedBetween sep b args = .ok c) ∧
    ∀ l, b.ledger.recordAll (entriesBehind b.bindCount args) = (l, .ok ()) →
      ∃ c, apply name (pair sep) args b = .ok c ∧ embedBetween sep b args = .ok c ∧
        c.ledger = l ∧ c.bindCount = b.bindCount + (args.map Builder.bindCount).sum := by
  have same : ∀ c, apply name (pair sep) args b = .ok c ↔ embedBetween sep b args = .ok c :=
    fun _ => apply_pair_eq_ok_iff text (fun arg mem => (scripted arg mem).regular) two
  refine ⟨same, fun l merged => ?_⟩
  obtain ⟨c, written, last, total⟩ := exists_embedBetween sep merged
  exact ⟨c, (same c).mpr written, written, last, total⟩

def rowSample : List (List BuilderOp) :=
  let v := BindVariable.unvalued ⟨['G'], by decide⟩ .int
  [[.append "x -- first", .breakBeforeNext], [.appendBind v], [.append "(\n", .appendBind v,
    .append ")"]]

def rowOuter : Builder :=
  let v := BindVariable.unvalued ⟨['G'], by decide⟩ .number
  (BuilderOp.runAll (Builder.empty .dollar)
    [.pushIndent (.simple "  "), .appendBind v, .append " -- note", .breakBeforeNext]).1

def rowBuilders : List Builder :=
  rowSample.map fun ops => (BuilderOp.runAll (Builder.empty .dollar) ops).1

theorem apply_between_sample :
    (∀ arg ∈ rowBuilders, arg.IsScripted .dollar) ∧
    ∃ c, apply "CONCAT" (pair "\n|| ") rowBuilders rowOuter = .ok c ∧
      embedBetween "\n|| " rowOuter rowBuilders = .ok c ∧
      c.finish.sql = "  $1 -- note\n  x -- first\n  || $2\n  || (\n  $3)".toList ∧
      c.finish.binds = [⟨⟨['G'], by decide⟩, .int, [1, 2, 3]⟩] := by
  have ran : ∀ ops ∈ rowSample, (BuilderOp.runAll (Builder.empty .dollar) ops).2 = .ok () := by
    decide +kernel
  have scripted : ∀ arg ∈ rowBuilders, arg.IsScripted .dollar := by
    intro arg mem
    obtain ⟨ops, listed, rfl⟩ := List.mem_map.mp mem
    exact ⟨ops, Prod.ext rfl (ran ops listed)⟩
  have both := apply_between "\n|| " (by decide) "CONCAT" rowOuter scripted (by decide)
  have merged : (rowOuter.ledger.recordAll (entriesBehind rowOuter.bindCount rowBuilders)) =
      ([⟨.unvalued ⟨['G'], by decide⟩ .int, [1, 2, 3]⟩], .ok ()) := by decide +kernel
  obtain ⟨c, applied, written, -⟩ := both.2 _ merged
  have known : (embedBetween "\n|| " rowOuter rowBuilders).map (fun c => (c.finish.sql,
      c.finish.binds)) = .ok ("  $1 -- note\n  x -- first\n  || $2\n  || (\n  $3)".toList,
        [⟨⟨['G'], by decide⟩, .int, [1, 2, 3]⟩]) := by decide +kernel
  rw [written] at known
  obtain ⟨sql, binds⟩ := Prod.mk.inj (Except.ok.inj known)
  exact ⟨scripted, c, applied, written, sql, binds⟩

end Template

end SqlCompose
