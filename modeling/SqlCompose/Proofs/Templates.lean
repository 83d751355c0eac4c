import SqlCompose.Proofs.Embedding
import SqlCompose.Proofs.Printing

/-! The slots that are read from a template, and those that stand in it. Braces are paired without
regard to what stands between them: an opening brace goes with the next closing one, also if
another opening one comes first. So a template is a row of groups, each a text without opening
braces and a pair of braces with what is between them, and an end where no brace is closed. All of
the template is in the slots, each part once and in order, but a slot behind an opening brace that
is not closed is taken for text with it. -/

namespace SqlCompose

theorem Text.append_cons_cases {c d : Char} {s t u v : Text} (same : s ++ c :: u = t ++ d :: v) :
    (s = t ∧ c = d ∧ u = v) ∨ (∃ w, t = s ++ c :: w ∧ u = w ++ d :: v) ∨
      ∃ w, s = t ++ d :: w ∧ v = w ++ c :: u := by
  rcases List.append_eq_append_iff.mp same with ⟨w, rfl, found⟩ | ⟨w, rfl, found⟩
  · rcases List.cons_eq_append_iff.mp found with ⟨rfl, rest⟩ | ⟨w, rfl, rfl⟩
    · obtain ⟨rfl, rfl⟩ := List.cons.inj rest
      exact .inl ⟨by simp, rfl, rfl⟩
    · exact .inr (.inl ⟨w, rfl, rfl⟩)
  · rcases List.cons_eq_append_iff.mp found with ⟨rfl, rest⟩ | ⟨w, rfl, rfl⟩
    · obtain ⟨rfl, rfl⟩ := List.cons.inj rest
      exact .inl ⟨by simp, rfl, rfl⟩
    · exact .inr (.inr ⟨w, rfl, rfl⟩)

theorem Text.takeWhile_dropWhile_ne {c : Char} {s : Text} (inside : c ∉ s) (after : Text)
    (ends : ∀ d ∈ after.head?, d = c) :
    (s ++ after).takeWhile (· ≠ c) = s ∧ (s ++ after).dropWhile (· ≠ c) = after := by
  have each : ∀ d ∈ s, decide (d ≠ c) = true := by
    intro d mem
    simpa using fun same : d = c => inside (same ▸ mem)
  rw [List.takeWhile_append_of_pos each, List.dropWhile_append_of_pos each]
  cases after with
  | nil => simp
  | cons d after => simp [ends d rfl]

namespace Template

section Groups

variable {before behind inner rest t : Text}

def group (before inner : Text) : List TemplateSlot :=
  match readSlot inner with
  | some slot => textSlot before ++ [slot]
  | none => [.text (before ++ '\x7b' :: inner ++ ['\x7d'])]

theorem slots_group (text : '\x7b' ∉ before) (inside : '\x7d' ∉ inner) :
    slots (before ++ '\x7b' :: (inner ++ '\x7d' :: rest)) = group before inner ++ slots rest := by
  have opening := Text.takeWhile_dropWhile_ne text ('\x7b' :: (inner ++ '\x7d' :: rest)) (by simp)
  have closing := Text.takeWhile_dropWhile_ne inside ('\x7d' :: rest) (by simp)
  rw [slots]
  split
  · next none =>
    rw [opening.2] at none
    cases none
  · next found =>
    rw [opening.2] at found
    obtain ⟨-, rfl⟩ := List.cons.inj found
    split
    · next none =>
      rw [closing.2] at none
      cases none
    · next found =>
      rw [closing.2] at found
      obtain ⟨-, rfl⟩ := List.cons.inj found
      rw [closing.1, opening.1, group]
      cases read : readSlot inner <;> simp [read]

theorem slots_end (text : '\x7b' ∉ before) (unclosed : '\x7d' ∉ behind) :
    slots (before ++ behind) = textSlot (before ++ behind) := by
  have closing : ∀ s, s ⊆ behind → s.dropWhile (· ≠ '\x7d') = [] := by
    intro s inside
    simpa using fun c mem => fun same : c = '\x7d' => unclosed (same ▸ inside mem)
  rw [slots]
  split
  · rfl
  · next found =>
    split
    · rfl
    · next closed =>
      have each : ∀ c ∈ before, decide (c ≠ '\x7b') = true := by
        intro c mem
        simpa using fun same : c = '\x7b' => text (same ▸ mem)
      rw [List.dropWhile_append_of_pos each] at found
      have part := (found ▸ List.dropWhile_subset (l := behind) (· ≠ '\x7b'))
      rw [closing _ fun c mem => part (List.mem_cons_of_mem _ mem)] at closed
      cases closed

theorem group_induction {P : Text → Prop}
    (ending : ∀ before behind : Text, '\x7b' ∉ before → '\x7d' ∉ behind → P (before ++ behind))
    (grouped : ∀ before inner rest : Text, '\x7b' ∉ before → '\x7d' ∉ inner → P rest →
      P (before ++ '\x7b' :: (inner ++ '\x7d' :: rest))) (t : Text) : P t := by
  induction size : t.length using Nat.strong_induction_on generalizing t with
  | _ n ih =>
    subst size
    have text : '\x7b' ∉ t.takeWhile (· ≠ '\x7b') := fun mem => by
      simpa using List.mem_takeWhile_imp mem
    have split : t.takeWhile (· ≠ '\x7b') ++ t.dropWhile (· ≠ '\x7b') = t :=
      List.takeWhile_append_dropWhile
    by_cases closed : '\x7d' ∈ t.dropWhile (· ≠ '\x7b')
    · obtain ⟨front, rest, found, first⟩ := List.eq_append_cons_of_mem closed
      cases front with
      | nil =>
        have head := List.head?_dropWhile_not (· ≠ '\x7b') t
        rw [found] at head
        simp at head
      | cons c inner =>
        have head := List.head?_dropWhile_not (· ≠ '\x7b') t
        rw [found] at head
        obtain rfl : c = '\x7b' := by simpa using head
        rw [← split, found]
        refine grouped _ inner rest text (fun mem => first (by simp [mem])) (ih _ ?_ rest rfl)
        have size := congrArg List.length split
        rw [found] at size
        simp at size
        omega
    · rw [← split]
      exact ending _ _ text closed

end Groups

/-- The texts that are read as a slot. -/
inductive Spells : Text → TemplateSlot → Prop
  | text (s : Text) : Spells s (.text s)
  | argument {inner : Text} {n : Nat} (read : Numeral.readSize inner = some n) :
    Spells ('\x7b' :: (inner ++ ['\x7d'])) (.argument n)
  | all : Spells ['\x7b', '*', '\x7d'] .all

theorem spells_readSlot {inner : Text} {slot : TemplateSlot} (read : readSlot inner = some slot) :
    Spells ('\x7b' :: (inner ++ ['\x7d'])) slot := by
  rw [readSlot] at read
  split at read
  · next star =>
    obtain rfl := Option.some.inj read
    rw [star]
    exact .all
  · obtain ⟨n, number, rfl⟩ := Option.map_eq_some_iff.mp read
    exact .argument number

theorem exists_spells_textSlot (s : Text) :
    ∃ ws, List.Forall₂ Spells ws (textSlot s) ∧ ws.flatten = s := by
  rw [textSlot]
  split
  · next empty => exact ⟨[], .nil, empty.symm⟩
  · exact ⟨[s], .cons (.text s) .nil, by simp⟩

theorem exists_spells_group (before inner : Text) :
    ∃ ws, List.Forall₂ Spells ws (group before inner) ∧
      ws.flatten = before ++ '\x7b' :: (inner ++ ['\x7d']) := by
  rw [group]
  split
  · next slot read =>
    obtain ⟨ws, spelled, text⟩ := exists_spells_textSlot before
    exact ⟨ws ++ [_], List.rel_append spelled (.cons (spells_readSlot read) .nil), by simp [text]⟩
  · exact ⟨[_], .cons (.text _) .nil, by simp⟩

theorem exists_spells_slots (t : Text) :
    ∃ ws, List.Forall₂ Spells ws (slots t) ∧ ws.flatten = t := by
  induction t using group_induction with
  | ending before behind text unclosed =>
    rw [slots_end text unclosed]
    exact exists_spells_textSlot _
  | grouped before inner rest text inside ih =>
    rw [slots_group text inside]
    obtain ⟨vs, first, here⟩ := exists_spells_group before inner
    obtain ⟨ws, others, later⟩ := ih
    exact ⟨vs ++ ws, List.rel_append first others, by simp [here, later]⟩

/-- What `inner` in braces says: a star all arguments, a decimal number the argument with it. -/
def decimalSlot (inner : Text) : Option TemplateSlot :=
  if inner = ['*'] then some .all
  else if inner ≠ [] ∧ inner.all Numeral.isDigit then some (.argument (Numeral.value inner))
  else none

/-- The slot that an opening brace begins, if `s` stands behind the brace, and what is left. -/
def slotBehind (s : Text) : Option (TemplateSlot × Text) :=
  match s.dropWhile (· ≠ '\x7d') with
  | [] => none
  | _ :: rest => (decimalSlot (s.takeWhile (· ≠ '\x7d'))).map (·, rest)

theorem length_of_slotBehind {s rest : Text} {slot : TemplateSlot}
    (found : slotBehind s = some (slot, rest)) : rest.length < s.length := by
  rw [slotBehind] at found
  split at found
  · cases found
  · next closed =>
    obtain ⟨_, -, same⟩ := Option.map_eq_some_iff.mp found
    obtain ⟨rfl, rfl⟩ := Prod.mk.inj same
    have part := (List.dropWhile_sublist (· ≠ '\x7d') (l := s)).length_le
    rw [closed, List.length_cons] at part
    omega

/-- A template read from left to right: at each place a slot, or else one character of text. -/
def occurrences : Text → List TemplateSlot
  | [] => []
  | c :: s =>
    match _found : if c = '\x7b' then slotBehind s else none with
    | some (slot, rest) => slot :: occurrences rest
    | none => .text [c] :: occurrences s
  termination_by t => t.length
  decreasing_by
    · have shorter : rest.length < s.length := by
        split at _found
        · exact length_of_slotBehind _found
        · cases _found
      simp only [List.length_cons]
      omega
    · simp

section Occurrences

variable {before behind inner rest t : Text} {slot : TemplateSlot} {ts : List TemplateSlot}

def singles (s : Text) : List TemplateSlot :=
  s.map fun c => .text [c]

theorem occurrences_cons_of_some {c : Char} {s : Text}
    (found : (if c = '\x7b' then slotBehind s else none) = some (slot, rest)) :
    occurrences (c :: s) = slot :: occurrences rest := by
  rw [occurrences]
  split
  · next same =>
    obtain ⟨rfl, rfl⟩ := Prod.mk.inj (Option.some.inj (same.symm.trans found))
    rfl
  · next none => cases none.symm.trans found

theorem occurrences_cons_of_none {c : Char} {s : Text}
    (none : (if c = '\x7b' then slotBehind s else none) = none) :
    occurrences (c :: s) = .text [c] :: occurrences s := by
  rw [occurrences]
  split
  · next found => cases none.symm.trans found
  · rfl

theorem occurrences_cons_of_ne {c : Char} (s : Text) (text : c ≠ '\x7b') :
    occurrences (c :: s) = .text [c] :: occurrences s :=
  occurrences_cons_of_none (if_neg text)

theorem occurrences_brace_of_some (found : slotBehind t = some (slot, rest)) :
    occurrences ('\x7b' :: t) = slot :: occurrences rest :=
  occurrences_cons_of_some ((if_pos rfl).trans found)

theorem occurrences_brace_of_none (none : slotBehind t = none) :
    occurrences ('\x7b' :: t) = .text ['\x7b'] :: occurrences t :=
  occurrences_cons_of_none ((if_pos rfl).trans none)

theorem occurrences_append (text : '\x7b' ∉ before) :
    occurrences (before ++ t) = singles before ++ occurrences t := by
  induction before with
  | nil => rfl
  | cons c before ih =>
    obtain ⟨other, later⟩ := List.ne_and_not_mem_of_not_mem_cons text
    rw [List.cons_append, occurrences_cons_of_ne _ other.symm, ih later]
    rfl

theorem slotBehind_closed (rest : Text) (inside : '\x7d' ∉ inner) :
    slotBehind (inner ++ '\x7d' :: rest) = (decimalSlot inner).map (·, rest) := by
  obtain ⟨here, behind⟩ := Text.takeWhile_dropWhile_ne inside ('\x7d' :: rest) (by simp)
  rw [slotBehind, here, behind]

theorem slotBehind_unclosed (unclosed : '\x7d' ∉ behind) : slotBehind behind = none := by
  have none := (Text.takeWhile_dropWhile_ne unclosed [] (by simp)).2
  rw [List.append_nil] at none
  rw [slotBehind, none]

theorem occurrences_unclosed (unclosed : '\x7d' ∉ behind) :
    occurrences behind = singles behind := by
  induction behind with
  | nil => rw [occurrences]; rfl
  | cons c behind ih =>
    have later := (List.ne_and_not_mem_of_not_mem_cons unclosed).2
    by_cases brace : c = '\x7b'
    · rw [brace, occurrences_brace_of_none (slotBehind_unclosed later), ih later]
      rfl
    · rw [occurrences_cons_of_ne _ brace, ih later]
      rfl

theorem decimalSlot_ne_text (inner s : Text) : decimalSlot inner ≠ some (.text s) := by
  rw [decimalSlot]
  split
  · simp
  · split <;> simp

theorem occurrences_closed_eq_iff (inside : '\x7d' ∉ inner) :
    occurrences (inner ++ '\x7d' :: rest) = singles (inner ++ ['\x7d']) ++ ts ↔
      (∀ u v, inner = u ++ '\x7b' :: v → decimalSlot v = none) ∧ occurrences rest = ts := by
  induction inner with
  | nil =>
    rw [List.nil_append, occurrences_cons_of_ne rest (by decide)]
    simp [singles]
  | cons c inner ih =>
    obtain ⟨-, later⟩ := List.ne_and_not_mem_of_not_mem_cons inside
    have cases : (∀ u v, c :: inner = u ++ '\x7b' :: v → decimalSlot v = none) ↔
        (c = '\x7b' → decimalSlot inner = none) ∧
          ∀ u v, inner = u ++ '\x7b' :: v → decimalSlot v = none := by
      refine ⟨fun all => ⟨fun brace => all [] inner (by rw [brace]; rfl), fun u v split => ?_⟩,
        fun ⟨first, others⟩ u v split => ?_⟩
      · exact all (c :: u) v (by rw [split]; rfl)
      · rcases List.append_eq_cons_iff.mp split.symm with ⟨rfl, same⟩ | ⟨u', rfl, behind⟩
        · obtain ⟨rfl, rfl⟩ := List.cons.inj same
          exact first rfl
        · exact others u' v behind
    have step : singles (c :: inner ++ ['\x7d']) ++ ts =
      .text [c] :: (singles (inner ++ ['\x7d']) ++ ts) := rfl
    rw [cases, step, List.cons_append]
    by_cases brace : c = '\x7b'
    · subst brace
      cases found : decimalSlot inner with
      | none =>
        rw [occurrences_brace_of_none (by simp [slotBehind_closed rest later, found]),
          List.cons.injEq, ih later]
        simp
      | some slot =>
        rw [occurrences_brace_of_some (by rw [slotBehind_closed rest later, found]; rfl)]
        have other : slot ≠ .text ['\x7b'] := fun same =>
          decimalSlot_ne_text inner _ (same ▸ found)
        simp [other]
    · rw [occurrences_cons_of_ne _ brace, List.cons.injEq, ih later]
      simp [brace]

end Occurrences

section Agreement

variable {before behind inner rest t u : Text}

def units (ts : List TemplateSlot) : List TemplateSlot :=
  ts.flatMap fun
    | .text s => singles s
    | slot => [slot]

/-- Whether an opening brace stands in `u` with no closing brace behind it. -/
def isOpen (u : Text) : Bool :=
  (u.reverse.takeWhile (· ≠ '\x7d')).contains '\x7b'

/-- Every pair of braces is read for what it says: behind a brace that is open no slot begins, and
elsewhere the numbers in braces are the decimal numbers there. -/
def IsLegible (t : Text) : Prop :=
  ∀ u inner rest : Text, t = u ++ '\x7b' :: (inner ++ '\x7d' :: rest) → '\x7d' ∉ inner →
    if isOpen u then decimalSlot inner = none else readSlot inner = decimalSlot inner

theorem isOpen_of_not_mem (text : '\x7b' ∉ u) : isOpen u = false := by
  rw [isOpen, Bool.eq_false_iff, ne_eq, List.contains_iff_mem]
  exact fun mem => text (List.mem_reverse.mp (List.takeWhile_subset _ mem))

theorem isOpen_closed (before u : Text) : isOpen (before ++ '\x7d' :: u) = isOpen u := by
  simp only [isOpen, List.reverse_append, List.reverse_cons, List.append_assoc]
  by_cases unclosed : '\x7d' ∈ u
  · obtain ⟨v, w, split, first⟩ := List.eq_append_cons_of_mem (List.mem_reverse.mpr unclosed)
    have upTo : ∀ after, (u.reverse ++ after).takeWhile (· ≠ '\x7d') = v := by
      intro after
      rw [split, List.append_assoc]
      exact (Text.takeWhile_dropWhile_ne first _ (by simp)).1
    have whole := upTo []
    rw [List.append_nil] at whole
    rw [upTo, whole]
  · have reversed : '\x7d' ∉ u.reverse := fun mem => unclosed (List.mem_reverse.mp mem)
    have whole := (Text.takeWhile_dropWhile_ne reversed [] (by simp)).1
    rw [List.append_nil] at whole
    rw [whole]
    exact congrArg (List.contains · '\x7b') (Text.takeWhile_dropWhile_ne reversed _ (by simp)).1

theorem isOpen_brace (before : Text) (inside : '\x7d' ∉ inner) :
    isOpen (before ++ '\x7b' :: inner) = true := by
  have reversed : ∀ c ∈ inner.reverse ++ ['\x7b'], decide (c ≠ '\x7d') = true := by
    intro c mem
    rcases List.mem_append.mp mem with here | brace
    · simpa using fun same : c = '\x7d' => inside (List.mem_reverse.mp (same ▸ here))
    · rw [List.mem_singleton.mp brace]
      decide
  rw [isOpen, List.reverse_append, List.reverse_cons, List.takeWhile_append_of_pos reversed]
  simp

theorem isLegible_end (text : '\x7b' ∉ before) (unclosed : '\x7d' ∉ behind) :
    IsLegible (before ++ behind) := by
  intro u inner rest split
  rcases List.append_eq_append_iff.mp split with ⟨v, rfl, found⟩ | ⟨v, rfl, found⟩
  · exact absurd (by simp [found]) unclosed
  · cases v with
    | nil =>
      rw [List.nil_append] at found
      exact absurd (by simp [← found]) unclosed
    | cons c v =>
      obtain ⟨rfl, -⟩ := List.cons.inj found
      exact absurd (by simp) text

theorem isLegible_group (text : '\x7b' ∉ before) (inside : '\x7d' ∉ inner) :
    IsLegible (before ++ '\x7b' :: (inner ++ '\x7d' :: rest)) ↔
      readSlot inner = decimalSlot inner ∧
      (∀ u v, inner = u ++ '\x7b' :: v → decimalSlot v = none) ∧ IsLegible rest := by
  have shut := isOpen_of_not_mem text
  constructor
  · intro legible
    refine ⟨?_, fun u v split => ?_, fun u v after split closed => ?_⟩
    · simpa [shut] using legible before inner rest rfl inside
    · subst split
      have part : '\x7d' ∉ u := fun mem => inside (by simp [mem])
      have nested := legible (before ++ '\x7b' :: u) v rest (by simp)
        fun mem => inside (by simp [mem])
      rwa [isOpen_brace before part, if_pos rfl] at nested
    · have later := legible (before ++ '\x7b' :: (inner ++ '\x7d' :: u)) v after
        (by simp [split]) closed
      have moved : before ++ '\x7b' :: (inner ++ '\x7d' :: u) =
        (before ++ '\x7b' :: inner) ++ '\x7d' :: u := by simp
      rwa [moved, isOpen_closed] at later
  · rintro ⟨first, nested, later⟩ u v after split closed
    -- two texts up to a closing brace are the same
    have ends : ∀ {s w x : Text}, '\x7d' ∉ s → s ++ '\x7d' :: w = v ++ '\x7d' :: x → s = v := by
      intro s w x plain same
      rcases Text.append_cons_cases same with ⟨here, -⟩ | ⟨_, rfl, -⟩ | ⟨_, rfl, -⟩
      · exact here
      · exact absurd (by simp) closed
      · exact absurd (by simp) plain
    -- the braces are those of the group, or they stand behind it, or in it
    rcases Text.append_cons_cases split with ⟨rfl, -, found⟩ | ⟨w, rfl, found⟩ | ⟨w, rfl, -⟩
    · obtain rfl := ends inside found
      simpa [shut] using first
    · rcases Text.append_cons_cases found with ⟨-, other, -⟩ | ⟨x, rfl, behind⟩ | ⟨x, rfl, here⟩
      · exact absurd other (by decide)
      · have moved : before ++ '\x7b' :: (inner ++ '\x7d' :: x) =
          (before ++ '\x7b' :: inner) ++ '\x7d' :: x := by simp
        rw [moved, isOpen_closed]
        exact later x v after behind closed
      · have part : '\x7d' ∉ w := fun mem => inside (by simp [mem])
        have plain : '\x7d' ∉ x := fun mem => inside (by simp [mem])
        obtain rfl := ends plain here.symm
        rw [isOpen_brace before part, if_pos rfl]
        exact nested w x rfl
    · exact absurd (by simp) text

theorem singles_append (s s' : Text) : singles (s ++ s') = singles s ++ singles s' := by
  simp [singles]

theorem units_textSlot (s : Text) : units (textSlot s) = singles s := by
  rw [textSlot]
  split
  · next empty => rw [empty]; rfl
  · simp [units]

theorem readSlot_ne_text (inner s : Text) : readSlot inner ≠ some (.text s) := by
  rw [readSlot]
  split <;> simp

theorem units_group (before inner : Text) : units (group before inner) = singles before ++
    match readSlot inner with
    | some slot => [slot]
    | none => .text ['\x7b'] :: singles (inner ++ ['\x7d']) := by
  rw [group]
  cases read : readSlot inner with
  | none => simp [units, singles]
  | some slot =>
    have first := units_textSlot before
    rw [units] at first ⊢
    rw [List.flatMap_append, first]
    cases slot with
    | text s => exact absurd read (readSlot_ne_text inner s)
    | argument n => rfl
    | all => rfl

theorem not_mem_of_decimalSlot {slot : TemplateSlot} (found : decimalSlot inner = some slot) :
    '\x7b' ∉ inner := by
  rw [decimalSlot] at found
  split at found
  · next star => simp [star]
  · split at found
    · next digits =>
      intro mem
      have digit := List.all_eq_true.mp digits.2 _ mem
      revert digit
      decide
    · cases found

theorem units_slots_eq_iff (t : Text) : units (slots t) = occurrences t ↔ IsLegible t := by
  induction t using group_induction with
  | ending before behind text unclosed =>
    rw [slots_end text unclosed, units_textSlot, occurrences_append text,
      occurrences_unclosed unclosed, singles_append]
    simp [isLegible_end text unclosed]
  | grouped before inner rest text inside ih =>
    have cut : ∀ xs ys : List TemplateSlot, units (xs ++ ys) = units xs ++ units ys := by
      simp [units]
    rw [slots_group text inside, cut, units_group, occurrences_append text, List.append_assoc,
      List.append_cancel_left_eq, isLegible_group text inside, ← ih]
    have closed := slotBehind_closed rest inside
    cases said : decimalSlot inner with
    | none =>
      rw [said] at closed
      rw [occurrences_brace_of_none closed]
      cases read : readSlot inner with
      | none =>
        rw [List.cons_append, List.cons.injEq, eq_comm (a := singles _ ++ _),
          occurrences_closed_eq_iff inside]
        simp [eq_comm]
      | some slot =>
        have other : slot ≠ .text ['\x7b'] := fun same => readSlot_ne_text inner _ (same ▸ read)
        simp [other]
    | some slot =>
      rw [said] at closed
      rw [occurrences_brace_of_some closed]
      have plain : ∀ u v, inner = u ++ '\x7b' :: v → decimalSlot v = none := by
        rintro u v rfl
        exact absurd (by simp) (not_mem_of_decimalSlot said)
      cases read : readSlot inner with
      | none =>
        have other : .text ['\x7b'] ≠ slot := fun same =>
          decimalSlot_ne_text inner _ (same ▸ said)
        simp [other]
      | some other =>
        rw [List.cons_append, List.nil_append, List.cons.injEq, Option.some.injEq]
        exact ⟨fun ⟨same, others⟩ => ⟨same, plain, others⟩,
          fun ⟨same, _, others⟩ => ⟨same, others⟩⟩

end Agreement

section Writing

variable {name t : Text} {args : List Builder} {b b' c : Builder} {ts : List TemplateSlot}

theorem fill_singles (s : Text) :
    fill name args b (singles s ++ ts) = fill name args (b.append s) ts := by
  induction s generalizing b with
  | nil => rfl
  | cons c s ih =>
    have step : fill name args b (singles (c :: s) ++ ts) =
      fill name args (b.append [c]) (singles s ++ ts) := rfl
    rw [step, ih, Builder.append_append]
    rfl

theorem fill_units (ts : List TemplateSlot) :
    fill name args b (units ts) = fill name args b ts := by
  induction ts generalizing b with
  | nil => rfl
  | cons slot ts ih =>
    cases slot with
    | text s => exact (fill_singles s).trans ih
    | argument n =>
      have step : fill name args b (units (.argument n :: ts)) =
        fill name args b (.argument n :: units ts) := rfl
      simp only [step, fill, ih]
    | all =>
      have step : fill name args b (units (.all :: ts)) =
        fill name args b (.all :: units ts) := rfl
      simp only [step, fill, ih]

end Writing

/-- The text that a builder holds, a question mark for each placeholder. -/
def written (b : Builder) : Text :=
  codeText .question b.cells.toList

def replaced (args : List Builder) : TemplateSlot → Text
  | .text s => s
  | .argument n => (args[n]?.map written).getD []
  | .all => Text.joinWith ", " (args.map written)

/-- No line gets a lead, and no line end is owed. -/
structure IsPlain (b : Builder) : Prop where
  indents : b.indents = []
  settled : b.pendingBreak = false

section Text

variable {name t : Text} {args : List Builder} {b b' arg : Builder} {ts : List TemplateSlot}

theorem IsPlain.putCell (h : IsPlain b) (cell : Cell) (wordTail : Bool) :
    IsPlain (b.putCell cell wordTail) ∧
      written (b.putCell cell wordTail) = written b ++ cell.text .question := by
  have none : b.front = [] := by simp [Builder.front, Builder.lead, h.indents, h.settled]
  refine ⟨⟨?_, ?_⟩, ?_⟩
  · simp only [Builder.putCell, Builder.settleBreak_of_settled h.settled, Builder.startLine]
    split <;> simp [h.indents]
  · exact (Builder.startLine_settleBreak b).1
  · rw [written, Builder.cells_putCell, none, codeText_append]
    simp [written, codeText]

theorem IsPlain.putCopy (h : IsPlain b) (offset : Nat) (cell : Cell) :
    IsPlain (Builder.putCopy offset b cell) ∧
      written (Builder.putCopy offset b cell) = written b ++ cell.text .question := by
  cases cell with
  | char c =>
    rw [Builder.putCopy, Builder.putChar]
    split
    · next lineEnd =>
      refine ⟨⟨h.indents, rfl⟩, ?_⟩
      simp [written, Builder.endLine, codeText, Cell.text, lineEnd]
    · exact h.putCell _ _
  | kept c => exact h.putCell _ _
  | marker p => exact h.putCell _ _

theorem IsPlain.copies (h : IsPlain b) (offset : Nat) (cells : List Cell) :
    IsPlain (cells.foldl (Builder.putCopy offset) b) ∧
      written (cells.foldl (Builder.putCopy offset) b) =
        written b ++ codeText .question cells := by
  induction cells generalizing b with
  | nil => exact ⟨h, by simp [codeText]⟩
  | cons cell cells ih =>
    obtain ⟨plain, first⟩ := h.putCopy offset cell
    obtain ⟨all, others⟩ := ih plain
    exact ⟨all, by rw [List.foldl_cons, others, first]; simp [codeText]⟩

theorem IsPlain.append (h : IsPlain b) (s : Text) :
    IsPlain (b.append s) ∧ written (b.append s) = written b ++ s := by
  have texts : codeText .question (s.map Cell.char) = s := by
    simp [codeText, List.flatMap_map, Cell.text]
  rw [Builder.append_eq_copies]
  obtain ⟨plain, text⟩ := h.copies 0 (s.map Cell.char)
  exact ⟨plain, by rw [text, texts]⟩

theorem IsPlain.embed (h : IsPlain b) (settled : arg.pendingBreak = false)
    (g : (b.embed arg).toExcept = .ok b') :
    IsPlain b' ∧ written b' = written b ++ written arg := by
  obtain ⟨l, -, rfl⟩ := Builder.embed_eq_ok_iff.mp (Attempt.toExcept_eq_ok_iff.mp g)
  obtain ⟨plain, text⟩ := h.copies b.bindCount arg.cells.toList
  have copied : b.copyText arg = arg.cells.toList.foldl (Builder.putCopy b.bindCount) b := by
    rw [Builder.copyText, settled]
    rfl
  rw [copied]
  exact ⟨⟨plain.indents, plain.settled⟩, text⟩

theorem IsPlain.embedAll (h : IsPlain b) (settled : ∀ arg ∈ args, arg.pendingBreak = false)
    {isFirst : Bool} (g : embedAll isFirst b args = .ok b') :
    IsPlain b' ∧ written b' = written b ++
      (if isFirst ∨ args = [] then [] else [',', ' ']) ++
        Text.joinWith ", " (args.map written) := by
  induction args generalizing b isFirst with
  | nil =>
    obtain rfl := Except.ok.inj g
    exact ⟨h, by simp [Text.joinWith]⟩
  | cons arg args ih =>
    rw [Template.embedAll] at g
    obtain ⟨c, embedded, rest⟩ := Except.bind_eq_ok_iff.mp g
    obtain ⟨here, later⟩ := List.forall_mem_cons.mp settled
    have comma : IsPlain (if isFirst then b else b.append ", ") ∧
        written (if isFirst then b else b.append ", ") =
          written b ++ if isFirst then [] else [',', ' '] := by
      split
      · exact ⟨h, by simp⟩
      · exact h.append _
    obtain ⟨plain, first⟩ := comma.1.embed here embedded
    obtain ⟨all, others⟩ := ih plain later rest
    refine ⟨all, ?_⟩
    rw [others, first, comma.2]
    cases args <;> simp [Text.joinWith]

theorem IsPlain.fill (h : IsPlain b) (settled : ∀ arg ∈ args, arg.pendingBreak = false)
    (g : fill name args b ts = .ok b') :
    IsPlain b' ∧ written b' = written b ++ ts.flatMap (replaced args) := by
  induction ts generalizing b with
  | nil =>
    obtain rfl := Except.ok.inj g
    exact ⟨h, by simp⟩
  | cons slot ts ih =>
    cases slot with
    | text s =>
      obtain ⟨plain, first⟩ := h.append s
      obtain ⟨all, others⟩ := ih plain g
      exact ⟨all, by rw [others, first]; simp [replaced]⟩
    | argument n =>
      simp only [Template.fill] at g
      split at g
      · cases g
      · next arg found =>
        obtain ⟨c, embedded, rest⟩ := Except.bind_eq_ok_iff.mp g
        obtain ⟨plain, first⟩ := h.embed (settled arg (List.mem_of_getElem? found)) embedded
        obtain ⟨all, others⟩ := ih plain rest
        exact ⟨all, by rw [others, first]; simp [replaced, found]⟩
    | all =>
      obtain ⟨c, embedded, rest⟩ := Except.bind_eq_ok_iff.mp g
      obtain ⟨plain, first⟩ := h.embedAll settled embedded
      obtain ⟨all, others⟩ := ih plain rest
      exact ⟨all, by rw [others, first]; simp [replaced]⟩

end Text

/-- A template that is filled is written part by part, with nothing left out and nothing written
twice, and there is an argument for each of its slots. The slots are those that stand in it exactly
if it is legible. -/
theorem apply_replaces {name t : Text} {args : List Builder} {b b' : Builder}
    (unfolded : (isBinary (slots t) && 2 < args.length) = false)
    (applied : apply name t args b = .ok b') :
    (∃ ws, List.Forall₂ Spells ws (slots t) ∧ ws.flatten = t) ∧
    (units (slots t) = occurrences t ↔ IsLegible t) ∧
    (∀ n, .argument n ∈ slots t → n < args.length) ∧
    fill name args b (units (slots t)) = .ok b' ∧
    (IsPlain b → (∀ arg ∈ args, arg.pendingBreak = false) →
      written b' = written b ++ (units (slots t)).flatMap (replaced args)) := by
  have filled : fill name args b (slots t) = .ok b' := by
    simpa only [apply, unfolded, Bool.false_eq_true, if_false] using applied
  have parts : fill name args b (units (slots t)) = .ok b' := (fill_units _).trans filled
  refine ⟨exists_spells_slots t, units_slots_eq_iff t, fun n slot => lt_length_of_fill filled slot,
    parts, fun plain settled => ?_⟩
  exact (plain.fill settled parts).2

def replacedSample : List Builder × Builder :=
  let arg (s : Text) := (Builder.empty .question).append s
  ([arg "a", arg "b + ?"], (Builder.empty .question).append "f(b + ?, \x7bx\x7d, a, b + ?)")

theorem apply_replaces_sample :
    let t : Text := "f(\x7b1\x7d, \x7bx\x7d, \x7b*\x7d)"
    (isBinary (slots t) && 2 < replacedSample.1.length) = false ∧
      apply "F" t replacedSample.1 (Builder.empty .question) = .ok replacedSample.2 ∧
      IsPlain (Builder.empty .question) ∧ (∀ arg ∈ replacedSample.1, arg.pendingBreak = false) ∧
      written replacedSample.2 = (units (slots t)).flatMap (replaced replacedSample.1) := by
  intro t
  have unfolded : (isBinary (slots t) && 2 < replacedSample.1.length) = false := by
    decide +kernel
  have applied : apply "F" t replacedSample.1 (Builder.empty .question) =
      .ok replacedSample.2 := by
    decide +kernel
  have plain : IsPlain (Builder.empty .question) := ⟨rfl, rfl⟩
  have settled : ∀ arg ∈ replacedSample.1, arg.pendingBreak = false := by
    decide +kernel
  have text := (apply_replaces unfolded applied).2.2.2.2 plain settled
  exact ⟨unfolded, applied, plain, settled, text⟩

example : slots "\x7bx\x7b0\x7d" = [.text "\x7bx\x7b0\x7d"] ∧
    occurrences "\x7bx\x7b0\x7d" = [.text "\x7b", .text "x", .argument 0] := by
  decide +kernel

end Template

end SqlCompose
