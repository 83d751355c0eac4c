import SqlCompose.Proofs.Lexing.Normal

/-! Where the characters of a fragment stand in its normal form. Of a fragment only blanks are
dropped, and only line ends are written for them. So the normal form has the visible characters of
the fragment in their order, and a place beside one of them is found in the result beside the same
character. -/

namespace SqlCompose

namespace Text

/-- The characters of a text that are no blanks. -/
def visible (s : Text) : Text :=
  s.filter fun c => !isBlank c

@[simp] theorem visible_nil : visible [] = [] := rfl

@[simp] theorem visible_append (s t : Text) : visible (s ++ t) = visible s ++ visible t := by
  simp [visible]

theorem visible_cons_of_visible {c : Char} (seen : isBlank c = false) (s : Text) :
    visible (c :: s) = c :: visible s := by
  simp [visible, seen]

theorem visible_of_blanks {s : Text} (blanks : s.isAllBlank = true) : visible s = [] := by
  rw [visible, List.filter_eq_nil_iff]
  intro c mem
  simp [List.all_eq_true.mp blanks c mem]

theorem exists_append_of_blanks {b s u v : Text} {c : Char} (blanks : b.isAllBlank = true)
    (seen : isBlank c = false) (split : b ++ s = u ++ c :: v) :
    ∃ w, u = b ++ w ∧ s = w ++ c :: v := by
  rcases List.append_eq_append_iff.mp split with ⟨w, rfl, rfl⟩ | ⟨w, rfl, rest⟩
  · exact ⟨w, rfl, rfl⟩
  · cases w with
    | nil => exact ⟨[], by simp, by simpa using rest.symm⟩
    | cons d w =>
      obtain ⟨rfl, -⟩ := List.cons.inj rest
      rw [isAllBlank, List.all_append, List.all_cons, seen] at blanks
      simp at blanks

theorem eq_of_visible {u v u' v' : Text} {c d : Char} (here : isBlank c = false)
    (there : isBlank d = false) (same : visible u = visible u')
    (whole : u ++ c :: v = u' ++ d :: v') : u = u' := by
  have apart : ∀ {u w : Text} {c : Char} {v s : Text}, isBlank c = false →
      visible u = visible (u ++ w) → c :: v = w ++ s → w = [] := by
    intro u w c v s seen same rest
    cases w with
    | nil => rfl
    | cons e w =>
      obtain ⟨rfl, -⟩ := List.cons.inj rest
      rw [visible_append, visible_cons_of_visible seen] at same
      simp at same
  rcases List.append_eq_append_iff.mp whole with ⟨w, rfl, rest⟩ | ⟨w, rfl, rest⟩
  · rw [apart here same rest, List.append_nil]
  · rw [apart there same.symm rest, List.append_nil]

end Text

open Text

namespace Fragment

/-- From an offset on, the text has the source lines in it, each behind at least `least` blanks,
and blanks behind the last one. -/
inductive Stands : Nat → Nat → Text → List SourceLine → Prop
  | nil {least offset : Nat} {s : Text} (blanks : s.isAllBlank = true) : Stands least offset s []
  | cons {least offset : Nat} {gap s : Text} {l : SourceLine} {ls : List SourceLine}
    (blanks : gap.isAllBlank = true) (room : least ≤ gap.byteSize)
    (start : l.start = offset + gap.byteSize)
    (rest : Stands 1 (l.start + l.text.byteSize) s ls) :
    Stands least offset (gap ++ (l.text ++ s)) (l :: ls)

theorem sourceLines_cons (ranges : List ByteRange) (offset : Nat) (line : Text)
    (lines : List Text) : ∃ (text trail : Text) (kept : Bool), line = text ++ trail ∧
      trail.isAllBlank = true ∧ sourceLines ranges offset (line :: lines) =
        ⟨offset, text, kept⟩ :: sourceLines ranges (offset + line.byteSize + 1) lines := by
  rw [sourceLines]
  split
  · exact ⟨line, [], _, by simp, rfl, rfl⟩
  · obtain ⟨trail, split, blanks⟩ := trimEnd_append_blanks line
    exact ⟨_, trail, _, split, blanks, rfl⟩

theorem stands_sourceLines (ranges : List ByteRange) (lines : List Text) {trail : Text}
    (blanks : trail.isAllBlank = true) {offset next : Nat}
    (behind : next = offset + trail.byteSize + 1) :
    Stands 1 offset (trail ++ Text.below lines) (sourceLines ranges next lines) := by
  induction lines generalizing trail offset next with
  | nil =>
    rw [below_nil, List.append_nil]
    exact .nil blanks
  | cons line lines ih =>
    have size : Text.byteSize ['\n'] = 1 := by decide
    have gap : isAllBlank (trail ++ ['\n']) = true := by
      rw [isAllBlank_append, blanks]
      decide
    obtain ⟨text, trail', kept, split, blanks', known⟩ := sourceLines_cons ranges next line lines
    have later := @ih trail' blanks' (next + text.byteSize) (next + line.byteSize + 1) (by
      rw [split, byteSize_append]
      omega)
    have whole : trail ++ Text.below (line :: lines) =
        (trail ++ ['\n']) ++ (text ++ (trail' ++ Text.below lines)) := by
      rw [below_cons, split]
      simp
    rw [whole, known]
    refine .cons (l := ⟨next, text, kept⟩) gap ?_ ?_ later
    · rw [byteSize_append, size]
      exact Nat.le_add_left 1 _
    · rw [byteSize_append, size, ← Nat.add_assoc]
      exact behind

theorem stands_lines (ranges : List ByteRange) (sql : Text) :
    Stands 0 0 sql (sourceLines ranges 0 sql.lines) := by
  have whole := unlines_lines sql
  cases lines : sql.lines with
  | nil => exact absurd lines (lines_ne_nil sql)
  | cons line lines' =>
    obtain ⟨text, trail, kept, split, blanks, known⟩ := sourceLines_cons ranges 0 line lines'
    have behind : 0 + line.byteSize + 1 = 0 + text.byteSize + trail.byteSize + 1 := by
      rw [split, byteSize_append, Nat.zero_add, Nat.zero_add]
    have later := stands_sourceLines ranges lines' blanks behind
    have first : Stands 0 0 ([] ++ (text ++ (trail ++ Text.below lines')))
        (⟨0, text, kept⟩ :: sourceLines ranges (0 + line.byteSize + 1) lines') :=
      .cons (l := ⟨0, text, kept⟩) rfl (Nat.le_refl 0) rfl later
    have split' : line ++ Text.below lines' = text ++ (trail ++ Text.below lines') := by
      rw [split, List.append_assoc]
    rw [lines, unlines_cons] at whole
    rw [known, ← whole, split']
    exact first

namespace Stands

variable {least offset : Nat} {s : Text} {l : SourceLine} {ls tail : List SourceLine}

theorem of_blank (h : Stands least offset s (l :: ls)) (blank : l.isBlank = true) :
    Stands least offset s ls := by
  have textBlank : l.text.isAllBlank = true := ((Bool.and_eq_true _ _).mp blank).2
  cases h with
  | @cons _ _ gap s _ _ blanks room start rest =>
    cases rest with
    | nil blanks' =>
      refine .nil ?_
      rw [isAllBlank_append, isAllBlank_append, blanks, textBlank, blanks']
      rfl
    | @cons _ _ gap' s l' ls' blanks' room' start' rest' =>
      have whole : gap ++ (l.text ++ (gap' ++ (l'.text ++ s))) =
          (gap ++ (l.text ++ gap')) ++ (l'.text ++ s) := by
        simp
      rw [whole]
      refine .cons ?_ ?_ ?_ rest'
      · rw [isAllBlank_append, isAllBlank_append, blanks, textBlank, blanks']
        rfl
      · rw [byteSize_append]
        omega
      · rw [start', start, byteSize_append, byteSize_append]
        omega

theorem dropWhile (h : Stands least offset s ls) :
    Stands least offset s (ls.dropWhile SourceLine.isBlank) := by
  induction ls with
  | nil => exact h
  | cons l ls ih =>
    cases blank : l.isBlank with
    | true =>
      rw [List.dropWhile_cons_of_pos blank]
      exact ih (h.of_blank blank)
    | false =>
      rw [List.dropWhile_cons_of_neg (by simp [blank])]
      exact h

theorem isAllBlank (h : Stands least offset s ls)
    (blank : ∀ l ∈ ls, SourceLine.isBlank l = true) : s.isAllBlank = true := by
  induction ls generalizing s with
  | nil =>
    cases h with
    | nil blanks => exact blanks
  | cons l ls ih =>
    exact ih (h.of_blank (blank l (by simp))) fun l mem => blank l (List.mem_cons_of_mem _ mem)

theorem of_append (h : Stands least offset s (ls ++ tail))
    (blank : ∀ l ∈ tail, SourceLine.isBlank l = true) : Stands least offset s ls := by
  induction ls generalizing least offset s with
  | nil => exact .nil (h.isAllBlank blank)
  | cons l ls ih =>
    cases h with
    | cons blanks room start rest => exact .cons blanks room start (ih rest)

end Stands

theorem stands_body (ranges : List ByteRange) (sql : Text) :
    Stands 0 0 sql (body (sourceLines ranges 0 sql.lines)) := by
  obtain ⟨tail, parts, blank⟩ := body_append_blanks (sourceLines ranges 0 sql.lines)
  have dropped := (stands_lines ranges sql).dropWhile
  rw [parts] at dropped
  exact dropped.of_append blank

/-- The placed lines stand in the first text from one offset on, and in the second one from
another offset on. In both texts there are only blanks around them, in the first one at least
`least` before each. -/
inductive Copied : Nat → Nat → Nat → Text → Text → List PlacedLine → Prop
  | nil {least p q : Nat} {s : Text} (blanks : s.isAllBlank = true) : Copied least p q s [] []
  | cons {least p q : Nat} {gap gap' s t : Text} {l : PlacedLine} {ls : List PlacedLine}
    (blanks : gap.isAllBlank = true) (room : least ≤ gap.byteSize)
    (blanks' : gap'.isAllBlank = true) (source : l.source = p + gap.byteSize)
    (target : l.target = q + gap'.byteSize)
    (rest : Copied 1 (l.source + l.text.byteSize) (l.target + l.text.byteSize) s t ls) :
    Copied least p q (gap ++ (l.text ++ s)) (gap' ++ (l.text ++ t)) (l :: ls)

theorem Copied.placed {least p q : Nat} {gap gap' lead cut s t : Text} {l : SourceLine}
    {ls : List PlacedLine} (blanks : gap.isAllBlank = true) (room : least ≤ gap.byteSize)
    (blanks' : gap'.isAllBlank = true) (start : l.start = p + gap.byteSize)
    (split : l.text = lead ++ cut) (leadBlanks : lead.isAllBlank = true)
    (rest : Copied 1 (l.start + l.text.byteSize) (q + gap'.byteSize + cut.byteSize) s t ls) :
    Copied least p q (gap ++ (l.text ++ s)) (gap' ++ (cut ++ t))
      (l.placed (q + gap'.byteSize) cut :: ls) := by
  have size : l.text.byteSize = lead.byteSize + cut.byteSize := by rw [split, byteSize_append]
  have source : l.start + (l.text.byteSize - cut.byteSize) = p + Text.byteSize (gap ++ lead) := by
    rw [byteSize_append]
    omega
  have stop : l.start + (l.text.byteSize - cut.byteSize) + cut.byteSize =
      l.start + l.text.byteSize := by omega
  have whole : gap ++ (l.text ++ s) = (gap ++ lead) ++ (cut ++ s) := by
    rw [split]
    simp
  rw [whole]
  refine .cons (l := l.placed (q + gap'.byteSize) cut) ?_ ?_ blanks' source rfl ?_
  · rw [isAllBlank_append, blanks, leadBlanks]
    rfl
  · rw [byteSize_append]
    omega
  · rw [← stop] at rest
    exact rest

theorem Stands.copied_placeRest {offset common q : Nat} {s : Text} {ls : List SourceLine}
    (h : Stands 1 offset s ls)
    (cuts : ∀ l ∈ ls, ∃ lead : Text, l.text = lead ++ l.cut common ∧ lead.isAllBlank = true) :
    Copied 1 offset q s (Text.below (ls.map (SourceLine.cut common)))
      (placeRest common (q + 1) ls) := by
  have size : Text.byteSize ['\n'] = 1 := by decide
  induction ls generalizing offset q s with
  | nil =>
    cases h with
    | nil blanks => exact .nil blanks
  | cons l ls ih =>
    cases h with
    | cons blanks room start rest =>
      obtain ⟨lead, split, leadBlanks⟩ := cuts l (by simp)
      have later := ih (q := q + 1 + (l.cut common).byteSize) rest
        fun l mem => cuts l (List.mem_cons_of_mem _ mem)
      have lineEnd : Text.isAllBlank ['\n'] = true := by decide
      have placed := Copied.placed (q := q) blanks room lineEnd start split leadBlanks
        (by rw [size]; exact later)
      rw [size] at placed
      rw [List.map_cons, below_cons]
      exact placed

theorem copied_normalLines (ranges : List ByteRange) (sql : Text) :
    Copied 0 0 0 sql (normalizeKeeping ranges sql).1 (normalLines ranges sql) := by
  have stands := stands_body ranges sql
  change Copied 0 0 0 sql (textOf (place (body (sourceLines ranges 0 sql.lines))))
    (place (body (sourceLines ranges 0 sql.lines)))
  cases known : body (sourceLines ranges 0 sql.lines) with
  | nil =>
    rw [known] at stands
    cases stands with
    | nil blanks => exact .nil blanks
  | cons l ls =>
    rw [known] at stands
    rw [textOf_place]
    cases stands with
    | @cons _ _ gap s _ _ blanks room start rest =>
      obtain ⟨lead, split, leadBlanks⟩ := blanks_append_trimStart l.text
      have cuts : ∀ m ∈ ls, ∃ lead : Text, m.text = lead ++ m.cut (commonIndent ls) ∧
          lead.isAllBlank = true := by
        intro m mem
        cases kept : m.kept with
        | false => exact SourceLine.cut_spec mem kept
        | true => exact ⟨[], by simp [SourceLine.cut, kept], rfl⟩
      have later := rest.copied_placeRest (q := l.text.trimStart.byteSize) cuts
      have none : Text.isAllBlank [] = true := rfl
      have placed := Copied.placed (q := 0) blanks room none start split leadBlanks
        (by rw [byteSize_nil, Nat.add_zero, Nat.zero_add]; exact later)
      exact placed

theorem mapOffset_cons_of_le {l next : PlacedLine} {ls : List PlacedLine} {offset : Nat}
    (here : l.source ≤ offset) (there : next.source ≤ offset) :
    mapOffset (l :: next :: ls) offset = mapOffset (next :: ls) offset := by
  simp [mapOffset, here, there, List.getLast?_cons]

theorem mapOffset_cons_of_lt {l : PlacedLine} {ls : List PlacedLine} {offset : Nat}
    (here : l.source ≤ offset) (behind : ∀ next ∈ ls.head?, offset < next.source) :
    mapOffset (l :: ls) offset = l.target + (offset - l.source) := by
  cases ls with
  | nil => simp [mapOffset, here]
  | cons next ls => simp [mapOffset, here, behind next rfl]

theorem behind_or_inside {x s w v : Text} {c : Char} (whole : x ++ s = w ++ c :: v) :
    (∃ w', w = x ++ w' ∧ s = w' ++ c :: v) ∨ ∃ v', x = w ++ c :: v' := by
  rcases List.append_eq_append_iff.mp whole with ⟨w', rfl, behind⟩ | ⟨w', text, behind⟩
  · exact .inl ⟨w', rfl, behind⟩
  · cases w' with
    | nil => exact .inl ⟨[], by simpa using text.symm, behind.symm⟩
    | cons d w' =>
      obtain ⟨rfl, -⟩ := List.cons.inj behind
      exact .inr ⟨w', text⟩

theorem Copied.mapOffset {least p q : Nat} {s t : Text} {ls : List PlacedLine}
    (h : Copied least p q s t ls) {u v : Text} {c : Char} (seen : isBlank c = false)
    (split : s = u ++ c :: v) :
    ∃ u' v', t = u' ++ c :: v' ∧ visible u' = visible u ∧
      (∀ l ∈ ls.head?, l.source ≤ p + u.byteSize) ∧
      ∀ k ≤ c.utf8Size, Fragment.mapOffset ls (p + u.byteSize + k) = q + u'.byteSize + k := by
  induction h generalizing u with
  | @nil least p q s blanks =>
    rw [split, Text.isAllBlank, List.all_append, List.all_cons, seen] at blanks
    simp at blanks
  | @cons least p q gap gap' s t l ls blanks room blanks' source target rest ih =>
    obtain ⟨w, rfl, inner⟩ := exists_append_of_blanks blanks seen split
    have place : p + Text.byteSize (gap ++ w) = l.source + w.byteSize := by
      rw [source, byteSize_append, Nat.add_assoc]
    have first : ∀ m ∈ (l :: ls).head?, m.source ≤ p + Text.byteSize (gap ++ w) := by
      intro m head
      obtain rfl := Option.some.inj head
      exact place ▸ Nat.le_add_right _ _
    have gone : visible gap' = visible gap := by
      rw [visible_of_blanks blanks, visible_of_blanks blanks']
    rcases behind_or_inside inner with ⟨w', rfl, behind⟩ | ⟨v', text⟩
    · -- the character stands behind the line
      obtain ⟨u', v', text, same, next, maps⟩ := ih behind
      refine ⟨gap' ++ (l.text ++ u'), v', by simp [text], ?_, first, fun k bound => ?_⟩
      · simp only [visible_append, gone, same]
      · cases ls with
        | nil =>
          cases rest with
          | nil none => simp at text
        | cons n ls =>
          have le := next n rfl
          have mapped := maps k bound
          rw [byteSize_append] at place
          rw [byteSize_append, place, byteSize_append, ← Nat.add_assoc,
            mapOffset_cons_of_le (by omega) (by omega), mapped, target]
          simp only [byteSize_append]
          omega
    · -- the character stands in the line
      refine ⟨gap' ++ w, v' ++ t, ?_, ?_, first, fun k bound => ?_⟩
      · rw [text]
        simp
      · simp only [visible_append, gone]
      · have inLine : w.byteSize + c.utf8Size ≤ l.text.byteSize := by
          rw [text, byteSize_append, byteSize_cons]
          omega
        have behind : ∀ next ∈ ls.head?, l.source + w.byteSize + k < next.source := by
          intro next head
          cases rest with
          | nil => cases head
          | cons _ room' _ source' =>
            obtain rfl := Option.some.inj head
            omega
        rw [place, mapOffset_cons_of_lt (by omega) behind, target, byteSize_append]
        omega

/-- Beside a visible character of a fragment, an offset is found beside the character of the normal
form that has the same visible characters before it. -/
theorem mapOffset_normal (ranges : List ByteRange) {sql u v u' v' : Text} {c d : Char}
    (here : isBlank c = false) (there : isBlank d = false) (split : sql = u ++ c :: v)
    (split' : (normalizeKeeping ranges sql).1 = u' ++ d :: v') (same : visible u' = visible u)
    {k : Nat} (bound : k ≤ c.utf8Size) :
    mapOffset (normalLines ranges sql) (u.byteSize + k) = u'.byteSize + k := by
  obtain ⟨w, x, text, same', -, maps⟩ := (copied_normalLines ranges sql).mapOffset here split
  obtain rfl : w = u' := eq_of_visible here there (same'.trans same.symm) (text.symm.trans split')
  simpa using maps k bound

end Fragment

end SqlCompose
