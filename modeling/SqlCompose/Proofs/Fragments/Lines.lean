import SqlCompose.Proofs.Fragments.Rows

/-! The lines that a normal form is made of. The machine that finds long literals reads a fragment
line by line, and the mode in which a line begins and ends says what is kept of it. So the normal
form depends on the lines of a fragment alone, and not on where its tokens stand. -/

namespace SqlCompose

open LexMode Fragment

namespace LexMode

variable {m : LexMode} {b : Text}

def StartsLine (m : LexMode) : Prop :=
  ∀ b : Text, b.isAllBlank = true → m.run b = m

theorem startsLine_code : StartsLine code :=
  fun _ blanks => run_behindBreak (m := code) blanks

theorem startsLine_step (m : LexMode) : StartsLine (m.step '\n') := by
  intro b blanks
  rcases run_blanks (m := m.step '\n') blanks with same | ⟨breakable, behind⟩
  · exact same
  · rw [behind]
    revert breakable
    cases m <;> decide

theorem step_run_blanks (blanks : b.isAllBlank = true) : (m.run b).step '\n' = m.step '\n' := by
  rcases run_blanks (m := m) blanks with same | ⟨breakable, -⟩
  · rw [same]
  · rw [step_lineEnd blanks breakable, ← step_lineEnd (b := []) rfl breakable]
    rfl

theorem StartsLine.run_append (h : m.StartsLine) (blanks : b.isAllBlank = true) (s : Text) :
    m.run (b ++ s) = m.run s := by
  rw [LexMode.run_append, h b blanks]

end LexMode

def Fragment.SourceLine.unplaced (l : SourceLine) : SourceLine :=
  { l with start := 0 }

/-- The source lines that the machine finds from a mode on, without their places. -/
def modeLines (m : LexMode) : List Text → List SourceLine
  | [] => []
  | line :: lines =>
    ⟨0, if m.run line = .string then line else line.trimEnd, m == .string⟩
      :: modeLines ((m.run line).step '\n') lines

theorem LinesAgree.map_unplaced {ranges : List ByteRange} {offset : Nat} {m : LexMode}
    {lines : List Text} (h : LinesAgree ranges offset m lines) :
    (sourceLines ranges offset lines).map SourceLine.unplaced = modeLines m lines := by
  induction h with
  | nil => rfl
  | cons _ before _ behind _ ih =>
    rw [sourceLines, modeLines, List.map_cons, ih, before, behind]
    simp only [SourceLine.unplaced, beq_iff_eq]

theorem isBlank_unplaced (l : SourceLine) : l.unplaced.isBlank = l.isBlank := rfl

theorem body_map {f : SourceLine → SourceLine} (same : ∀ l, (f l).isBlank = l.isBlank)
    (ls : List SourceLine) : body (ls.map f) = (body ls).map f := by
  have same : SourceLine.isBlank ∘ f = SourceLine.isBlank := funext same
  rw [body, body, List.dropWhile_map, ← List.map_reverse, List.dropWhile_map, ← List.map_reverse,
    same]

theorem body_unplaced (ls : List SourceLine) :
    body (ls.map SourceLine.unplaced) = (body ls).map SourceLine.unplaced :=
  body_map isBlank_unplaced ls

theorem commonIndent_unplaced (ls : List SourceLine) :
    commonIndent (ls.map SourceLine.unplaced) = commonIndent ls := by
  rw [commonIndent, commonIndent, List.filter_map, List.map_map]
  rfl

theorem textOf_place_unplaced (ls : List SourceLine) :
    textOf (place (ls.map SourceLine.unplaced)) = textOf (place ls) := by
  cases ls with
  | nil => rfl
  | cons l ls =>
    rw [List.map_cons, textOf_place, textOf_place, commonIndent_unplaced, List.map_map]
    rfl

theorem normalText_eq {limit : Nat} {sql : Text} {ts : List Token}
    (h : tokenize limit sql = .ok ts) :
    normalText sql = textOf (place (body (modeLines code sql.lines))) := by
  have lines := (linesAgree_lines h).map_unplaced
  obtain ⟨-, rfl, -⟩ := tokenize_eq_ok_iff.mp h
  rw [← lines, body_unplaced, textOf_place_unplaced]
  rfl

/-- The lines are kept as the mode says in which they begin, and have no blanks at their ends,
unless they end in a string. -/
inductive Neat : LexMode → List SourceLine → Prop
  | nil (m : LexMode) : Neat m []
  | cons {m : LexMode} {l : SourceLine} {ls : List SourceLine} (kept : l.kept = (m == .string))
    (trimmed : m.run l.text = .string ∨ l.text.trimEnd = l.text)
    (rest : Neat ((m.run l.text).step '\n') ls) : Neat m (l :: ls)

namespace Text

theorem trimEnd_eq_self_iff {s : Text} :
    s.trimEnd = s ↔ ∀ c ∈ s.getLast?, isBlank c = false := by
  have same : s.trimEnd = s.rdropWhile isBlank := rfl
  rw [same, List.rdropWhile_eq_self_iff]
  cases s using List.reverseRecOn with
  | nil => simp
  | append_singleton s c => simp

theorem trimEnd_trimEnd (s : Text) : s.trimEnd.trimEnd = s.trimEnd :=
  List.rdropWhile_idempotent isBlank s

end Text

theorem neat_modeLines (m : LexMode) (lines : List Text) : Neat m (modeLines m lines) := by
  induction lines generalizing m with
  | nil => exact .nil m
  | cons line lines ih =>
    rw [modeLines]
    split
    · next inString => exact .cons rfl (.inl inString) (ih _)
    · obtain ⟨trail, split, blanks⟩ := Text.trimEnd_append_blanks line
      have same : (m.run line).step '\n' = (m.run line.trimEnd).step '\n' := by
        conv_lhs => rw [split, run_append, step_run_blanks blanks]
      rw [same]
      exact .cons rfl (.inr (Text.trimEnd_trimEnd line)) (ih _)

namespace Neat

variable {m : LexMode} {l : SourceLine} {ls tail : List SourceLine}

theorem of_append (h : Neat m (ls ++ tail)) : Neat m ls := by
  induction ls generalizing m with
  | nil => exact .nil m
  | cons l ls ih =>
    cases h with
    | cons kept trimmed rest => exact .cons kept trimmed (ih rest)

theorem dropWhile (h : Neat code ls) : Neat code (ls.dropWhile SourceLine.isBlank) := by
  induction ls with
  | nil => exact h
  | cons l ls ih =>
    cases blank : l.isBlank with
    | false =>
      rw [List.dropWhile_cons_of_neg (by simp [blank])]
      exact h
    | true =>
      have textBlank : l.text.isAllBlank = true := ((Bool.and_eq_true _ _).mp blank).2
      rw [List.dropWhile_cons_of_pos blank]
      cases h with
      | cons _ _ rest =>
        rw [step_run_blanks textBlank] at rest
        exact ih rest

theorem body (h : Neat code ls) : Neat code (body ls) := by
  obtain ⟨tail, parts, -⟩ := body_append_blanks ls
  have dropped := h.dropWhile
  rw [parts] at dropped
  exact dropped.of_append

theorem eq_nil_of_blank (h : Neat m ls) (start : m.StartsLine) (mem : l ∈ ls)
    (blank : l.isBlank = true) : l.text = [] := by
  induction h with
  | nil => cases mem
  | @cons m first ls kept trimmed rest ih =>
    rcases List.mem_cons.mp mem with rfl | later
    · obtain ⟨free, blanks⟩ := (Bool.and_eq_true _ _).mp blank
      rcases trimmed with inString | trimmed
      · rw [start _ blanks] at inString
        rw [kept, inString] at free
        cases free
      · rw [← trimmed]
        exact Text.trimEnd_eq_nil_iff.mpr blanks
    · exact ih (startsLine_step _) later

end Neat

theorem head?_body (ls : List SourceLine) :
    ∀ l ∈ (body ls).head?, SourceLine.isBlank l = false := by
  intro l head
  obtain ⟨tail, parts, -⟩ := body_append_blanks ls
  have first := List.head?_dropWhile_not SourceLine.isBlank ls
  have found : (ls.dropWhile SourceLine.isBlank).head? = some l := by
    rw [parts]
    exact List.head?_append_of_ne_nil _ (by rintro none; simp [none] at head) |>.trans head
  rw [found] at first
  exact first

theorem getLast?_body (ls : List SourceLine) :
    ∀ l ∈ (body ls).getLast?, SourceLine.isBlank l = false := by
  intro l last
  have first :=
    List.head?_dropWhile_not SourceLine.isBlank (ls.dropWhile SourceLine.isBlank).reverse
  rw [body, List.getLast?_reverse] at last
  rw [Option.mem_def.mp last] at first
  exact first

section Ends

variable {ls : List SourceLine} {l : SourceLine}

theorem dropWhile_isBlank_eq_self (first : ∀ l ∈ ls.head?, SourceLine.isBlank l = false) :
    ls.dropWhile SourceLine.isBlank = ls := by
  cases ls with
  | nil => rfl
  | cons f ls => exact List.dropWhile_cons_of_neg (by simp [first f rfl])

theorem body_eq_self (first : ∀ l ∈ ls.head?, SourceLine.isBlank l = false)
    (last : ∀ l ∈ ls.getLast?, SourceLine.isBlank l = false) : body ls = ls := by
  have back : ls.reverse.dropWhile SourceLine.isBlank = ls.reverse :=
    dropWhile_isBlank_eq_self fun l mem => last l (List.head?_reverse ▸ mem)
  rw [body, dropWhile_isBlank_eq_self first, back, List.reverse_reverse]

theorem body_append_singleton (first : ∀ l ∈ ls.head?, SourceLine.isBlank l = false)
    (last : ∀ l ∈ ls.getLast?, SourceLine.isBlank l = false) (blank : l.isBlank = true) :
    body (ls ++ [l]) = ls := by
  cases ls with
  | nil => simp [body, blank]
  | cons f ls =>
    have whole := body_eq_self first last
    have front : ((f :: ls) ++ [l]).dropWhile SourceLine.isBlank = (f :: ls) ++ [l] :=
      List.dropWhile_cons_of_neg (by simp [first f rfl])
    rw [body, dropWhile_isBlank_eq_self first] at whole
    rw [body, front, List.reverse_append, List.reverse_singleton, List.singleton_append,
      List.dropWhile_cons_of_pos blank, whole]

end Ends

def Fragment.SourceLine.counts (l : SourceLine) : Bool :=
  !l.kept && !l.text.isEmpty

def countedIndents (ls : List SourceLine) : List Nat :=
  (ls.filter SourceLine.counts).map fun l => indentWidth l.text

theorem commonIndent_eq (ls : List SourceLine) :
    commonIndent ls = (countedIndents ls).min?.getD 0 := rfl

theorem min?_map_add (k : Nat) (ns : List Nat) : (ns.map (k + ·)).min? = ns.min?.map (k + ·) := by
  induction ns with
  | nil => rfl
  | cons n ns ih =>
    rw [List.map_cons, List.min?_cons, List.min?_cons, ih]
    cases ns.min? <;> simp [Nat.add_min_add_left]

theorem indentWidth_append {u : Text} (indent : ∀ c ∈ u, isIndent c = true) (t : Text) :
    indentWidth (u ++ t) = u.length + indentWidth t := by
  rw [indentWidth, List.takeWhile_append_of_pos indent, List.length_append, indentWidth]

/-- The line at another indentation: behind `old` and `new` spaces and tabs, the two lines hold the
same text. A line that does not count stays as it is. -/
inductive Reindented (old new : Nat) : SourceLine → SourceLine → Prop
  | same {l l' : SourceLine} (uncounted : l.counts = false) (kept : l'.kept = l.kept)
    (text : l'.text = l.text) : Reindented old new l l'
  | moved {l l' : SourceLine} {u v t : Text} (free : l.kept = false) (free' : l'.kept = false)
    (split : l.text = u ++ t) (split' : l'.text = v ++ t) (nonempty : t ≠ [])
    (indent : ∀ c ∈ u, isIndent c = true) (indent' : ∀ c ∈ v, isIndent c = true)
    (size : u.length = old) (size' : v.length = new) : Reindented old new l l'

section Reindented

variable {old new : Nat} {l l' first first' : SourceLine} {ls ls' : List SourceLine}

theorem counts_of_append {u t : Text} (free : l.kept = false) (split : l.text = u ++ t)
    (nonempty : t ≠ []) : l.counts = true := by
  cases u <;> simp [SourceLine.counts, free, split, nonempty]

theorem cut_split (mem : l ∈ ls) (counts : l.counts = true) :
    ∃ u : Text, l.text = u ++ l.cut (commonIndent ls) ∧ (∀ c ∈ u, isIndent c = true) ∧
      u.length = commonIndent ls := by
  obtain ⟨free, -⟩ := (Bool.and_eq_true _ _).mp counts
  have least : commonIndent ls ≤ indentWidth l.text :=
    List.min?_getD_le_of_mem (List.mem_map_of_mem (List.mem_filter.mpr ⟨mem, counts⟩))
  have inside : l.text.take (commonIndent ls) =
      (l.text.takeWhile isIndent).take (commonIndent ls) := by
    conv_lhs => rw [← List.takeWhile_append_dropWhile (p := isIndent) (l := l.text)]
    exact List.take_append_of_le_length least
  refine ⟨l.text.take (commonIndent ls), ?_, fun c mem => ?_, ?_⟩
  · rw [SourceLine.cut, if_neg (by simpa using free), List.take_append_drop]
  · rw [inside] at mem
    exact List.mem_takeWhile_imp (List.mem_of_mem_take mem)
  · rw [inside, List.length_take]
    exact Nat.min_eq_left least

theorem exists_countedIndents (h : List.Forall₂ (Reindented old new) ls ls') :
    ∃ ns : List Nat, countedIndents ls = ns.map (old + ·) ∧
      countedIndents ls' = ns.map (new + ·) := by
  induction h with
  | nil => exact ⟨[], rfl, rfl⟩
  | @cons l l' ls ls' here _ ih =>
    obtain ⟨ns, before, behind⟩ := ih
    cases here with
    | same uncounted kept text =>
      have uncounted' : l'.counts = false := by
        rw [← uncounted, SourceLine.counts, SourceLine.counts, kept, text]
      refine ⟨ns, ?_, ?_⟩
      · rw [countedIndents, List.filter_cons_of_neg (by simp [uncounted])]
        exact before
      · rw [countedIndents, List.filter_cons_of_neg (by simp [uncounted'])]
        exact behind
    | @moved u v t free free' split split' nonempty indent indent' size size' =>
      have counts := counts_of_append free split nonempty
      have counts' := counts_of_append free' split' nonempty
      refine ⟨indentWidth t :: ns, ?_, ?_⟩
      · rw [countedIndents, List.filter_cons_of_pos counts, List.map_cons, split,
          indentWidth_append indent, size, List.map_cons]
        exact congrArg (_ :: ·) before
      · rw [countedIndents, List.filter_cons_of_pos counts', List.map_cons, split',
          indentWidth_append indent', size', List.map_cons]
        exact congrArg (_ :: ·) behind

theorem map_cut_reindented (h : List.Forall₂ (Reindented old new) ls ls') :
    ls'.map (SourceLine.cut (commonIndent ls')) = ls.map (SourceLine.cut (commonIndent ls)) := by
  obtain ⟨ns, before, behind⟩ := exists_countedIndents h
  rw [commonIndent_eq, commonIndent_eq, before, behind, min?_map_add, min?_map_add]
  -- a line that counts has an indentation, so there is a least one
  have sized : ∀ l ∈ ls, l.counts = true → ∃ n, ns.min? = some n := by
    intro l mem counts
    refine Option.ne_none_iff_exists'.mp fun none => ?_
    obtain rfl := List.min?_eq_none_iff.mp none
    rw [countedIndents, List.map_nil, List.map_eq_nil_iff, List.filter_eq_nil_iff] at before
    exact before l mem counts
  clear before behind
  induction h with
  | nil => rfl
  | @cons l l' ls ls' here _ ih =>
    have later := ih fun l mem => sized l (List.mem_cons_of_mem _ mem)
    rw [List.map_cons, List.map_cons, later]
    congr 1
    cases here with
    | same uncounted kept text =>
      cases free : l.kept with
      | true => rw [SourceLine.cut, SourceLine.cut, kept, free, if_pos rfl, if_pos rfl, text]
      | false =>
        have empty : l.text = [] := by simpa [SourceLine.counts, free] using uncounted
        simp [SourceLine.cut, text, empty]
    | moved free free' split split' nonempty _ _ size size' =>
      obtain ⟨n, least⟩ := sized l (by simp) (counts_of_append free split nonempty)
      simp only [least, Option.map_some, Option.getD_some]
      rw [SourceLine.cut, SourceLine.cut, free, free', if_neg (by decide), if_neg (by decide), split,
        split', ← size, ← size', List.drop_length_add_append, List.drop_length_add_append]

theorem textOf_place_reindented (front : first'.text.trimStart = first.text.trimStart)
    (h : List.Forall₂ (Reindented old new) ls ls') :
    textOf (place (first' :: ls')) = textOf (place (first :: ls)) := by
  rw [textOf_place, textOf_place, front, map_cut_reindented h]

end Reindented

end SqlCompose
