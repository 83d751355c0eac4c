/-! Texts are lists of characters, so that every cut and every scan is a list operation.
Sizes and positions are counted in UTF-8 bytes, because that is how callers address ranges
of a fragment. -/

namespace SqlCompose

/-- A text as the list of its characters. -/
abbrev Text := List Char

instance : Coe String Text := ⟨String.toList⟩

namespace Text

/-- Number of bytes of the UTF-8 form. -/
def byteSize : Text → Nat
  | [] => 0
  | c :: s => c.utf8Size + byteSize s

@[simp] theorem byteSize_nil : byteSize [] = 0 := rfl

@[simp] theorem byteSize_cons (c : Char) (s : Text) :
    byteSize (c :: s) = c.utf8Size + byteSize s := rfl

@[simp] theorem byteSize_append (s t : Text) :
    byteSize (s ++ t) = byteSize s + byteSize t := by
  induction s with
  | nil => simp
  | cons c s ih => simp [ih, Nat.add_assoc]

/-- The characters that lie wholly in the first `n` bytes. -/
def takeBytes : Nat → Text → Text
  | _, [] => []
  | n, c :: s => if c.utf8Size ≤ n then c :: takeBytes (n - c.utf8Size) s else []

def dropBytes : Nat → Text → Text
  | _, [] => []
  | n, c :: s => if c.utf8Size ≤ n then dropBytes (n - c.utf8Size) s else c :: s

theorem takeBytes_append_dropBytes (n : Nat) (s : Text) :
    takeBytes n s ++ dropBytes n s = s := by
  induction s generalizing n with
  | nil => rfl
  | cons c s ih =>
    by_cases h : c.utf8Size ≤ n
    · simp [takeBytes, dropBytes, h, ih]
    · simp [takeBytes, dropBytes, h]

@[simp] theorem takeBytes_byteSize (s t : Text) : takeBytes (byteSize s) (s ++ t) = s := by
  induction s with
  | nil =>
    cases t with
    | nil => rfl
    | cons c t => simp [takeBytes, Nat.ne_of_gt c.utf8Size_pos]
  | cons c s ih => simp [takeBytes, ih]

@[simp] theorem dropBytes_byteSize (s t : Text) : dropBytes (byteSize s) (s ++ t) = t := by
  have split := takeBytes_append_dropBytes (byteSize s) (s ++ t)
  rw [takeBytes_byteSize] at split
  exact List.append_cancel_left split

def slice (start stop : Nat) (s : Text) : Text :=
  takeBytes (stop - start) (dropBytes start s)

def spaces (n : Nat) : Text :=
  List.replicate n ' '

/-- The lines of a text: the pieces between its line ends, at least one. -/
def lines : Text → List Text
  | [] => [[]]
  | c :: s =>
    if c = '\n' then [] :: lines s
    else
      match lines s with
      | [] => [[c]]
      | line :: rest => (c :: line) :: rest

def unlines : List Text → Text
  | [] => []
  | [line] => line
  | line :: rest => line ++ '\n' :: unlines rest

theorem lines_ne_nil (s : Text) : lines s ≠ [] := by
  cases s with
  | nil => simp [lines]
  | cons c s =>
    simp only [lines]
    split
    · simp
    · split <;> simp

theorem unlines_lines (s : Text) : unlines (lines s) = s := by
  induction s with
  | nil => rfl
  | cons c s ih =>
    simp only [lines]
    split
    · next h =>
      cases e : lines s with
      | nil => exact absurd e (lines_ne_nil s)
      | cons line rest =>
        rw [e] at ih
        simp [unlines, h, ih]
    · cases e : lines s with
      | nil => exact absurd e (lines_ne_nil s)
      | cons line rest =>
        rw [e] at ih
        cases rest with
        | nil => simpa [unlines] using ih
        | cons next rest => simpa [unlines] using ih

def stripLead : Text → Text → Option Text
  | [], s => some s
  | _ :: _, [] => none
  | c :: lead, d :: s => if c = d then stripLead lead s else none

theorem stripLead_eq_some_iff {lead s rest : Text} :
    stripLead lead s = some rest ↔ s = lead ++ rest := by
  induction lead generalizing s with
  | nil => simp [stripLead]
  | cons c lead ih =>
    cases s with
    | nil => simp [stripLead]
    | cons d s =>
      by_cases h : c = d
      · simp [stripLead, h, ih]
      · simp [stripLead, h, Ne.symm h]

def padRight (width : Nat) (s : Text) : Text :=
  s ++ spaces (width - s.length)

def joinWith (sep : Text) : List Text → Text
  | [] => []
  | [s] => s
  | s :: rest => s ++ sep ++ joinWith sep rest

end Text

end SqlCompose
