namespace SecondaryIndex

abbrev Bytes := List UInt8

namespace Bytes

def ofText (s : String) : Bytes := s.toUTF8.toList

def startsWith (b start : Bytes) : Bool := start.isPrefixOf b

/-- Whether `part` stands somewhere in `b` as a run of neighbouring bytes. -/
def contains : Bytes → Bytes → Bool
  | [], part => part.isEmpty
  | x :: rest, part => part.isPrefixOf (x :: rest) || contains rest part

theorem startsWith_iff {b start : Bytes} : b.startsWith start ↔ start <+: b :=
  List.isPrefixOf_iff_prefix

theorem contains_iff {b part : Bytes} : b.contains part ↔ part <:+: b := by
  induction b with
  | nil => simp [contains]
  | cons x rest ih => simp [contains, ih, List.infix_cons_iff]

/-- The least byte string above all strings that start with the given one. A byte 0xFF cannot be
raised, so a string of such bytes alone has none. -/
def successor : Bytes → Option Bytes
  | [] => none
  | x :: rest =>
    match successor rest with
    | some above => some (x :: above)
    | none => if x = 0xFF then none else some [x + 1]

def hex (b : Bytes) : String :=
  String.ofList (b.flatMap fun x => [Nat.digitChar (x.toNat / 16), Nat.digitChar (x.toNat % 16)])

end Bytes
end SecondaryIndex
