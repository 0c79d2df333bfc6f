import SecondaryIndex.Condition
import SecondaryIndex.TokenSet

namespace SecondaryIndex

structure Entry where
  term : Bytes
  tokens : List Token
  deriving DecidableEq

/-- Tokens are counted, and their extremes noted, as they come. Postings that start with some
entries have those of the entries. -/
structure Postings where
  type : ValueType
  entries : List Entry := []
  /-- A token counts once for each term that it stands under. -/
  tokenCount : Nat := (entries.flatMap Entry.tokens).length
  minToken : Option Token := (entries.flatMap Entry.tokens).min?
  maxToken : Option Token := (entries.flatMap Entry.tokens).max?
  deriving DecidableEq

namespace Postings

def insertEntry (type : ValueType) (term : Bytes) (token : Token) :
    List Entry → Except Fault (List Entry)
  | [] => .ok [⟨term, [token]⟩]
  | e :: rest => do
    match ← type.compare e.term term with
    | .lt => return e :: (← insertEntry type term token rest)
    | .eq => return ⟨e.term, TokenSet.insert token e.tokens⟩ :: rest
    | .gt => return ⟨term, [token]⟩ :: e :: rest

def lookup (type : ValueType) (term : Bytes) : List Entry → Except Fault (List Entry)
  | [] => .ok []
  | e :: rest => do
    match ← type.compare e.term term with
    | .lt => lookup type term rest
    | .eq => return [e]
    | .gt => return []

/-- Whether the token stands under the term already. -/
def lists (p : Postings) (term : Bytes) (token : Token) : Except Fault Bool := do
  return (← lookup p.type term p.entries).any fun e => e.tokens.contains token

/-- Takes note of a token that is new under its term. -/
def counting (p : Postings) (token : Token) : Postings :=
  { p with
    tokenCount := p.tokenCount + 1
    minToken := some (p.minToken.elim token (min token))
    maxToken := some (p.maxToken.elim token (max token)) }

/-- A term is checked against those already there, so the first one is taken as it comes. -/
def add (p : Postings) (term : Bytes) (token : Token) : Except Fault Postings := do
  if ← p.lists term token then return p
  let entries ← insertEntry p.type term token p.entries
  return { p with entries }.counting token

def addAll (p : Postings) : List (Bytes × Token) → Except Fault Postings
  | [] => .ok p
  | (term, token) :: rest => do (← p.add term token).addAll rest

def isEmpty (p : Postings) : Bool := p.entries.isEmpty

def tokens (p : Postings) : List Token := p.entries.flatMap Entry.tokens

def termCount (p : Postings) : Nat := p.entries.length

def minTerm (p : Postings) : Option Bytes := p.entries.head?.map Entry.term

def maxTerm (p : Postings) : Option Bytes := p.entries.getLast?.map Entry.term

/-- The length of the longest run of entries at the front whose terms pass the test. -/
def countWhile (test : Bytes → Except Fault Bool) : List Entry → Except Fault Nat
  | [] => .ok 0
  | e :: rest => do
    if ← test e.term then return (← countWhile test rest) + 1 else return 0

def countBelow (p : Postings) (bound : Bytes) : Except Fault Nat :=
  countWhile (fun term => return (← p.type.compare term bound).isLT) p.entries

def countUpTo (p : Postings) (bound : Bytes) : Except Fault Nat :=
  countWhile (fun term => return (← p.type.compare bound term).isGE) p.entries

/-- The entries between two bounds, both included: an inverted pair leaves none. -/
def between (p : Postings) (lower upper : Option Bound) : Except Fault (List Entry) := do
  let start ← match lower with
    | some b => p.countBelow b.value
    | none => pure 0
  let stop ← match upper with
    | some b => p.countUpTo b.value
    | none => pure p.entries.length
  return (p.entries.take stop).drop start

def accepted (c : Condition) : List Entry → Except Fault (List Entry)
  | [] => .ok []
  | e :: rest => do
    let keep ← c.accepts e.term
    let more ← accepted c rest
    return if keep then e :: more else more

/-- The entries whose terms a condition accepts. Terms with one prefix are neighbours. -/
def matching (p : Postings) (c : Condition) : Except Fault (List Entry) := do
  match c.predicate with
  | .eq value => lookup p.type value p.entries
  | .range lower upper => accepted c (← p.between lower upper)
  | .startsWith start =>
    return (p.entries.drop (← p.countBelow start)).takeWhile fun e => e.term.startsWith start
  | .notEq _ | .contains _ => accepted c p.entries

/-- The tokens of all accepted terms in rising order, empty when no term is accepted. -/
def search (p : Postings) (c : Condition) : Except Fault (List Token) := do
  return TokenSet.ofList ((← p.matching c).flatMap Entry.tokens)

section

variable {p p' : Postings} {term : Bytes} {token : Token}

theorem add_of_listed (h : p.lists term token = .ok true) : p.add term token = .ok p := by
  rw [add, h]
  rfl

theorem add_of_not_listed (h : p.lists term token = .ok false) :
    p.add term token = (insertEntry p.type term token p.entries).map fun entries =>
      { p with entries }.counting token := by
  rw [add, h]
  change (insertEntry p.type term token p.entries >>= _) = _
  cases insertEntry p.type term token p.entries <;> rfl

theorem add_eq_ok (h : p.add term token = .ok p') :
    p.lists term token = .ok true ∧ p' = p ∨ p.lists term token = .ok false ∧ ∃ entries,
      insertEntry p.type term token p.entries = .ok entries ∧
        p' = { p with entries }.counting token := by
  cases hlisted : p.lists term token with
  | error f =>
    rw [add, hlisted] at h
    cases h
  | ok listed =>
    cases listed with
    | true =>
      rw [add_of_listed hlisted] at h
      cases h
      exact .inl ⟨rfl, rfl⟩
    | false =>
      rw [add_of_not_listed hlisted] at h
      cases hentries : insertEntry p.type term token p.entries with
      | error f =>
        rw [hentries] at h
        cases h
      | ok entries =>
        rw [hentries] at h
        cases h
        exact .inr ⟨rfl, entries, rfl, rfl⟩

theorem type_of_add (h : p.add term token = .ok p') : p'.type = p.type := by
  rcases add_eq_ok h with ⟨-, rfl⟩ | ⟨-, entries, -, rfl⟩
  · rfl
  · rfl

end

theorem pairwise_search {p : Postings} {c : Condition} {ts : List Token}
    (h : p.search c = .ok ts) : ts.Pairwise (· < ·) := by
  rw [search] at h
  cases hm : p.matching c with
  | error f => rw [hm] at h; cases h
  | ok es =>
    rw [hm] at h
    cases h
    exact TokenSet.pairwise_ofList _

end Postings
end SecondaryIndex
