import SqlCompose.Proofs.Fragments.Kept
import SqlCompose.Proofs.Lexing.Positions
import SqlCompose.Render.Format

/-! Slices of a normal form. The long literals of a fragment are slices of it, and the kept ranges
are where its normal form holds the same literals, one behind the other. So whoever writes the
normal form slice by slice stays in it, cuts between characters, and cuts no literal. -/

namespace SqlCompose

open Fragment

namespace Text

/-- Between the first `n` bytes and the rest, no character is cut. -/
def IsBoundary (s : Text) (n : Nat) : Prop :=
  ∃ before behind : Text, s = before ++ behind ∧ before.byteSize = n

theorem isBoundary_byteSize (before behind : Text) :
    (before ++ behind).IsBoundary before.byteSize :=
  ⟨before, behind, rfl, rfl⟩

theorem IsBoundary.le {s : Text} {n : Nat} (h : s.IsBoundary n) : n ≤ s.byteSize := by
  obtain ⟨before, behind, rfl, rfl⟩ := h
  rw [byteSize_append]
  exact Nat.le_add_right _ _

theorem slice_byteSize (front w rest : Text) :
    (front ++ (w ++ rest)).slice front.byteSize (front ++ w).byteSize = w := by
  rw [slice, dropBytes_byteSize, byteSize_append, Nat.add_sub_cancel_left, takeBytes_byteSize]

end Text

/-- The slice of `s` from `start` to `stop` lies in `s`, and cuts no character. -/
structure ByteRange.Fits (r : ByteRange) (s : Text) : Prop where
  ordered : r.start ≤ r.stop
  start : s.IsBoundary r.start
  stop : s.IsBoundary r.stop

namespace ByteRange.Fits

variable {r : ByteRange} {s : Text}

theorem of_append (front w rest : Text) :
    Fits ⟨front.byteSize, (front ++ w).byteSize⟩ (front ++ (w ++ rest)) := by
  refine ⟨?_, Text.isBoundary_byteSize _ _, ?_⟩
  · rw [Text.byteSize_append]
    exact Nat.le_add_right _ _
  · rw [← List.append_assoc]
    exact Text.isBoundary_byteSize _ _

theorem stop_le (h : r.Fits s) : r.stop ≤ s.byteSize :=
  h.stop.le

end ByteRange.Fits

def gaps (offset size : Nat) : List ByteRange → List ByteRange
  | [] => [⟨offset, size⟩]
  | r :: ranges => ⟨offset, r.start⟩ :: gaps r.stop size ranges

/-- Writes a text from `offset` on, slice by slice: the ranges as they are, and the gaps between
them as text. -/
def Builder.appendSlices (b : Builder) (s : Text) (offset : Nat) : List ByteRange → Builder
  | [] => b.append (s.slice offset s.byteSize)
  | r :: ranges =>
    ((b.append (s.slice offset r.start)).appendKept (s.slice r.start r.stop)).appendSlices s r.stop
      ranges

/-- Behind `front`, the ranges of the text hold the texts `ws`, one behind the other. -/
inductive Carved : Text → Text → List ByteRange → List Text → Prop
  | nil (front rest : Text) : Carved front rest [] []
  | cons (front gap : Text) {w rest : Text} {ranges : List ByteRange} {ws : List Text}
      (some : w ≠ []) (behind : Carved ((front ++ gap) ++ w) rest ranges ws) :
      Carved front (gap ++ (w ++ rest))
        (⟨(front ++ gap).byteSize, ((front ++ gap) ++ w).byteSize⟩ :: ranges) (w :: ws)

namespace Carved

variable {front rest : Text} {ranges : List ByteRange} {ws : List Text}

theorem text_cons (front gap w rest : Text) :
    front ++ (gap ++ (w ++ rest)) = ((front ++ gap) ++ w) ++ rest := by
  simp only [List.append_assoc]

theorem fits (h : Carved front rest ranges ws) :
    ∀ r ∈ ranges, front.byteSize ≤ r.start ∧ r.start < r.stop ∧ r.Fits (front ++ rest) := by
  induction h with
  | nil => simp
  | @cons front gap w rest ranges ws some _ ih =>
    have positive := Text.byteSize_pos some
    rintro r mem
    rcases List.mem_cons.mp mem with rfl | later
    · have fit := ByteRange.Fits.of_append (front ++ gap) w rest
      rw [List.append_assoc front gap (w ++ rest)] at fit
      refine ⟨?_, ?_, fit⟩
      · rw [Text.byteSize_append]
        exact Nat.le_add_right _ _
      · rw [Text.byteSize_append (front ++ gap)]
        exact Nat.lt_add_of_pos_right positive
    · obtain ⟨start, proper, fit⟩ := ih r later
      rw [← text_cons] at fit
      refine ⟨?_, proper, fit⟩
      simp only [Text.byteSize_append] at start
      omega

theorem pairwise (h : Carved front rest ranges ws) :
    ranges.Pairwise fun r u => r.stop ≤ u.start := by
  induction h with
  | nil => exact .nil
  | cons _ _ _ behind ih => exact .cons (fun u mem => (behind.fits u mem).1) ih

theorem map_slice (h : Carved front rest ranges ws) :
    (ranges.map fun r => (front ++ rest).slice r.start r.stop) = ws := by
  induction h with
  | nil => rfl
  | cons front gap _ _ ih =>
    rw [text_cons, List.map_cons, ih, List.append_assoc (front ++ gap), Text.slice_byteSize]

theorem gaps_fit (h : Carved front rest ranges ws) :
    ∀ g ∈ gaps front.byteSize (front ++ rest).byteSize ranges, g.Fits (front ++ rest) := by
  induction h with
  | nil front rest =>
    have fit := ByteRange.Fits.of_append front rest []
    rw [List.append_nil] at fit
    simpa [gaps] using fit
  | @cons front gap w rest ranges ws _ _ ih =>
    rw [text_cons, gaps]
    refine List.forall_mem_cons.mpr ⟨?_, ih⟩
    rw [← text_cons]
    exact ByteRange.Fits.of_append front gap (w ++ rest)

theorem appendAround_eq (h : Carved front rest ranges ws) (b : Builder) :
    b.appendAround front.byteSize rest ranges =
      b.appendSlices (front ++ rest) front.byteSize ranges := by
  induction h generalizing b with
  | nil front rest =>
    have whole := Text.slice_byteSize front rest []
    rw [List.append_nil] at whole
    rw [Builder.appendAround, Builder.appendSlices, whole]
  | @cons front gap w rest ranges ws _ _ ih =>
    have before := Text.slice_byteSize front gap (w ++ rest)
    have inside := Text.slice_byteSize (front ++ gap) w rest
    have behind : Text.dropBytes (Text.byteSize ((front ++ gap) ++ w) - front.byteSize)
        (gap ++ (w ++ rest)) = rest := by
      have size : Text.byteSize ((front ++ gap) ++ w) - front.byteSize =
          Text.byteSize (gap ++ w) := by
        simp only [Text.byteSize_append]
        omega
      rw [size, ← List.append_assoc, Text.dropBytes_byteSize]
    have first : Text.byteSize (front ++ gap) - front.byteSize = gap.byteSize := by
      rw [Text.byteSize_append, Nat.add_sub_cancel_left]
    have second : Text.byteSize ((front ++ gap) ++ w) - Text.byteSize (front ++ gap) =
        w.byteSize := by
      rw [Text.byteSize_append (front ++ gap), Nat.add_sub_cancel_left]
    rw [List.append_assoc front gap (w ++ rest)] at inside
    simp only [Builder.appendAround, Builder.appendSlices, first, second, behind, before, inside,
      Text.takeBytes_byteSize, Text.dropBytes_byteSize]
    rw [ih, ← text_cons]

end Carved

def longTexts (ts : List Token) : List Text :=
  (ts.filter Token.isLongLiteral).map Token.text

theorem longTexts_eq (ts : List Token) :
    longTexts ts = (stringTexts ts).filter (·.contains '\n') := by
  rw [longTexts, stringTexts, List.filter_map, List.filter_filter]
  congr 2
  funext t
  simp [Token.isLongLiteral, Bool.and_comm, Bool.beq_eq_decide_eq]

theorem longTexts_cons (t : Token) (ts : List Token) :
    longTexts (t :: ts) = if t.isLongLiteral then t.text :: longTexts ts else longTexts ts := by
  rw [longTexts, List.filter_cons]
  split <;> rfl

theorem longTexts_of_shapes {ts us : List Token}
    (h : us.map Token.shape = ts.map Token.shape) : longTexts us = longTexts ts := by
  rw [longTexts_eq, longTexts_eq, stringTexts_eq, h, ← stringTexts_eq]

theorem carved_scanAt {p : Place} {s : Text} (ok : (scanAt p s).fault = none) :
    ∀ front gap : Text, p.offset = (front ++ gap).byteSize →
      Carved front (gap ++ s) (longLiterals (scanAt p s).tokens) (longTexts (scanAt p s).tokens) :=
  scanAt_induction
    (motive := fun p s ts => ∀ front gap : Text, p.offset = (front ++ gap).byteSize →
      Carved front (gap ++ s) (longLiterals ts) (longTexts ts))
    (fun _ front gap _ => .nil front _)
    (fun p c s ts _ behind front gap here => by
      have next : (p.next c).offset = Text.byteSize (front ++ (gap ++ [c])) := by
        rw [offset_next, here]
        simp [Nat.add_assoc]
      have later := behind front (gap ++ [c]) next
      rwa [List.append_assoc] at later)
    (fun p c s k n ts _ _ behind front gap here => by
      have split : c :: s = (c :: s.take n) ++ s.drop n := by simp
      have stop : p.offset + Text.byteSize (c :: s.take n) =
          Text.byteSize ((front ++ gap) ++ (c :: s.take n)) := by
        rw [Text.byteSize_append, here]
      rw [longLiterals_cons, longTexts_cons]
      split_ifs
      · have later := behind ((front ++ gap) ++ (c :: s.take n)) [] (by
          rw [Place.offset_after, List.append_nil, stop])
        have whole := Carved.cons front gap (List.cons_ne_nil c (s.take n)) later
        rw [← here, ← stop] at whole
        rw [split]
        exact whole
      · have later := behind front (gap ++ (c :: s.take n)) (by
          rw [Place.offset_after, stop, List.append_assoc])
        rwa [List.append_assoc, ← split] at later)
    ok

theorem carved_of_tokenize {limit : Nat} {sql : Text} {ts : List Token}
    (h : tokenize limit sql = .ok ts) : Carved [] sql (longLiterals ts) (longTexts ts) := by
  obtain ⟨ok, rfl, -⟩ := tokenize_eq_ok_iff.mp h
  exact carved_scanAt ok [] [] rfl

theorem carved_normal {limit : Nat} {sql : Text} {ts : List Token}
    (h : tokenize limit sql = .ok ts) :
    Carved [] (normalizeKeeping (longLiterals ts) sql).1
      (normalizeKeeping (longLiterals ts) sql).2 (longTexts ts) := by
  obtain ⟨us, shapes, found⟩ := (lexes_normal h).tokenize
  have few : us.length ≤ limit := by
    rw [(sameTokens_of_shapes shapes).length]
    exact (tokenize_eq_ok_iff.mp h).2.2
  have again := found limit few
  rw [kept_normal h again, ← longTexts_of_shapes shapes]
  exact carved_of_tokenize again

/-- The ranges slice the texts `ws` out of the text `s`, in their order and apart from each other,
and what is left between them are slices as well. -/
structure Slices (s : Text) (ranges : List ByteRange) (ws : List Text) : Prop where
  proper : ∀ r ∈ ranges, r.start < r.stop
  within : ∀ r ∈ ranges, r.stop ≤ s.byteSize
  fits : ∀ r ∈ ranges, r.Fits s
  apart : ranges.Pairwise fun r u => r.stop ≤ u.start
  texts : (ranges.map fun r => s.slice r.start r.stop) = ws
  between : ∀ g ∈ gaps 0 s.byteSize ranges, g.Fits s

theorem Carved.slices {s : Text} {ranges : List ByteRange} {ws : List Text}
    (h : Carved [] s ranges ws) : Slices s ranges ws :=
  ⟨fun r mem => (h.fits r mem).2.1, fun r mem => (h.fits r mem).2.2.stop_le,
    fun r mem => (h.fits r mem).2.2, h.pairwise, h.map_slice, h.gaps_fit⟩

theorem Slices.slice_eq {s t : Text} {old new : List ByteRange} {ws : List Text}
    (h : Slices s old ws) (g : Slices t new ws) {i : Nat} {r u : ByteRange}
    (here : old[i]? = some r) (there : new[i]? = some u) :
    t.slice u.start u.stop = s.slice r.start r.stop := by
  have same := congrArg (·[i]?) (g.texts.trans h.texts.symm)
  simpa [here, there] using same

/-- In its normal form, a fragment has its long literals at the ranges that are kept: as many, in
the same order, apart from each other, and with the same bytes. All slices that are written of the
normal form lie in it, and between them they take each literal as a whole. -/
theorem normalizeKeeping_longLiterals {limit : Nat} {sql text : Text} {ts : List Token}
    {kept : List ByteRange} (h : tokenize limit sql = .ok ts)
    (normal : normalizeKeeping (longLiterals ts) sql = (text, kept)) :
    Slices sql (longLiterals ts) (longTexts ts) ∧ Slices text kept (longTexts ts) ∧
    kept.length = (longLiterals ts).length ∧
    (∀ (i : Nat) (r u : ByteRange), (longLiterals ts)[i]? = some r → kept[i]? = some u →
      text.slice u.start u.stop = sql.slice r.start r.stop) ∧
    (∀ (b : Builder) (extra : Nat), b.wrapKeeping sql (longLiterals ts) extra =
      ((b.pushIndent (Builder.wrapLead extra)).appendSlices text 0 kept).popIndent) ∧
    ∀ (c : RenderConfig) (extra : Nat), tokenize c.maxTokens sql = .ok ts →
      formatFragment c extra sql = .ok
        ((((Builder.empty c.placeholder).pushIndent (.simple c.indentText)).pushIndent
          (Builder.wrapLead extra)).appendSlices text 0 kept).popIndent.popIndent.endLine.finish.sql
    := by
  have before := (carved_of_tokenize h).slices
  have carved := carved_normal h
  have length : kept.length = (longLiterals ts).length := by
    have mapped : ((longLiterals ts).map (mapRange (normalLines (longLiterals ts) sql))) = kept :=
      congrArg Prod.snd normal
    rw [← mapped, List.length_map]
  rw [normal] at carved
  have wrapped : ∀ (b : Builder) (extra : Nat), b.wrapKeeping sql (longLiterals ts) extra =
      ((b.pushIndent (Builder.wrapLead extra)).appendSlices text 0 kept).popIndent := by
    intro b extra
    have written := carved.appendAround_eq (b.pushIndent (Builder.wrapLead extra))
    simp only [Builder.wrapKeeping, normal]
    exact congrArg Builder.popIndent written
  refine ⟨before, carved.slices, length, fun i r u => before.slice_eq carved.slices, wrapped, ?_⟩
  intro c extra few
  simp only [formatFragment, few, bind, Except.bind, wrapped]

def adjoiningSample : Text :=
  "  x = '\u00e9 \n\n  b' || '\n c'  \n     -- d\n   , ?\n"

def adjoiningNormal : Text :=
  "x = '\u00e9 \n\n  b' || '\n c'\n  -- d\n, ?"

theorem normalizeKeeping_longLiterals_sample :
    (tokenize 8 adjoiningSample).map longLiterals = .ok [⟨6, 16⟩, ⟨20, 25⟩] ∧
    normalizeKeeping [⟨6, 16⟩, ⟨20, 25⟩] adjoiningSample =
      (adjoiningNormal, [⟨4, 14⟩, ⟨18, 23⟩]) ∧
    Slices adjoiningNormal [⟨4, 14⟩, ⟨18, 23⟩]
      ["'\u00e9 \n\n  b'".toList, "'\n c'".toList] := by
  have known : tokenize 8 adjoiningSample = .ok (scan adjoiningSample).tokens :=
    tokenize_eq_ok_iff.mpr ⟨by decide +kernel, rfl, by decide +kernel⟩
  have ranges : longLiterals (scan adjoiningSample).tokens = [⟨6, 16⟩, ⟨20, 25⟩] := by
    decide +kernel
  have texts : longTexts (scan adjoiningSample).tokens =
      ["'\u00e9 \n\n  b'".toList, "'\n c'".toList] := by
    decide +kernel
  have normal : normalizeKeeping [⟨6, 16⟩, ⟨20, 25⟩] adjoiningSample =
      (adjoiningNormal, [⟨4, 14⟩, ⟨18, 23⟩]) := by
    decide +kernel
  have slices := (normalizeKeeping_longLiterals known (ranges.symm ▸ normal)).2.1
  rw [texts] at slices
  exact ⟨by rw [known]; exact congrArg Except.ok ranges, normal, slices⟩

end SqlCompose
