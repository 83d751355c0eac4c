import SqlCompose.Bind.Variable

/-! Ledgers: which bind variables a text uses and at which of its placeholders. Every variable
has one entry, and entries stand in the order of their first use. -/

namespace SqlCompose

/-- A variable with the positions of its placeholders, counted from one. -/
structure LedgerEntry where
  bind : BindVariable
  positions : List Nat
  deriving DecidableEq

abbrev Ledger := List LedgerEntry

def LedgerEntry.shift (offset : Nat) (e : LedgerEntry) : LedgerEntry :=
  { e with positions := e.positions.map (· + offset) }

namespace Ledger

def record (v : BindVariable) (positions : List Nat) : Ledger → Except SqlError Ledger
  | [] => .ok [⟨v, positions⟩]
  | e :: rest =>
    if e.bind.name = v.name then
      match e.bind.combine v with
      | .error err => .error err
      | .ok merged => .ok (⟨merged, e.positions ++ positions⟩ :: rest)
    else
      match record v positions rest with
      | .error err => .error err
      | .ok rest => .ok (e :: rest)

/-- Notes all entries of another ledger, up to the first conflict; what was noted before it
stays. -/
def recordAll (l : Ledger) : List LedgerEntry → Ledger × Except SqlError Unit
  | [] => (l, .ok ())
  | e :: rest =>
    match l.record e.bind e.positions with
    | .error err => (l, .error err)
    | .ok l => recordAll l rest

end Ledger

end SqlCompose
