import SqlCompose.Text.Basic

/-! Texts between quotes, with each quote inside written twice. Reading stops at the first
quote that is not doubled. -/

namespace SqlCompose.Doubled

def encode (q : Char) (s : Text) : Text :=
  s.flatMap fun c => if c = q then [q, q] else [c]

def enclose (q : Char) (s : Text) : Text :=
  q :: encode q s ++ [q]

/-- Reads behind an opening quote: the text up to the closing quote and what follows it. -/
def read (q : Char) : Text → Option (Text × Text)
  | [] => none
  | c :: s =>
    if c = q then
      match s with
      | [] => some ([], [])
      | d :: rest =>
        if d = q then (read q rest).map fun (inner, after) => (q :: inner, after)
        else some ([], d :: rest)
    else (read q s).map fun (inner, after) => (c :: inner, after)

theorem length_read {q : Char} {s inner after : Text} (h : read q s = some (inner, after)) :
    after.length < s.length := by
  fun_induction read q s generalizing inner after with
  | case1 => simp at h
  | case2 => simp_all
  | case3 rest ih =>
    simp only [Option.map_eq_some_iff] at h
    obtain ⟨⟨i, a⟩, hr, he⟩ := h
    have := ih hr
    simp_all only [Prod.mk.injEq, List.length_cons]
    omega
  | case4 => simp_all
  | case5 c s _ ih =>
    simp only [Option.map_eq_some_iff] at h
    obtain ⟨⟨i, a⟩, hr, he⟩ := h
    have := ih hr
    simp_all only [Prod.mk.injEq, List.length_cons]
    omega

end SqlCompose.Doubled
