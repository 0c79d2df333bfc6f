import SecondaryIndex.Proofs.Indexes
import SecondaryIndex.Proofs.Searching

namespace SecondaryIndex

theorem ValueType.compare_malformed {type : ValueType} {a b : Bytes}
    (h : ¬ (type.WellFormed a ∧ type.WellFormed b)) : type.compare a b =
      .error (.badWidth (if type.WellFormed a then b.length else a.length)) := by
  have htype : type = bigint := by
    by_contra hne
    exact h ⟨fun heq => absurd heq hne, fun heq => absurd heq hne⟩
  subst htype
  change Bigint.compare a b = _
  rw [Bigint.compare]
  by_cases ha : a.length = 8
  · have hwell : bigint.WellFormed a := fun _ => ha
    have hb : b.length ≠ 8 := fun hb => h ⟨hwell, fun _ => hb⟩
    rw [if_pos hwell, Bigint.decode, if_pos ha, Bigint.decode_of_length_ne hb]
    rfl
  · rw [if_neg fun hwell => ha (hwell rfl), Bigint.decode_of_length_ne ha]
    rfl

namespace Postings

variable {type : ValueType} {term value : Bytes} {token t : Token} {entries : List Entry}
  {p : Postings}

/-- Whether a token stands under a term that is the value. -/
def Under (type : ValueType) (entries : List Entry) (value : Bytes) (t : Token) : Prop :=
  ∃ e ∈ entries, type.order e.term value = .eq ∧ t ∈ e.tokens

theorem under_cons {e : Entry} : Under type (e :: entries) value t ↔
    (type.order e.term value = .eq ∧ t ∈ e.tokens) ∨ Under type entries value t :=
  List.exists_mem_cons_iff _ _ _

theorem insertEntry_sound (hsound : Sound type entries) (hterm : type.WellFormed term)
    (token : Token) : ∃ entries', insertEntry type term token entries = .ok entries' ∧
      Sound type entries' ∧ entries' ≠ [] ∧ ∀ value t, Under type entries' value t ↔
        (type.order term value = .eq ∧ t = token) ∨ Under type entries value t := by
  induction entries with
  | nil =>
    refine ⟨_, rfl, List.forall_mem_singleton.2 hterm, List.cons_ne_nil _ _, fun value t => ?_⟩
    rw [under_cons, List.mem_singleton]
  | cons e rest ih =>
    obtain ⟨he, hrest⟩ := List.forall_mem_cons.1 hsound
    rw [insertEntry, ValueType.compare_of_wellFormed he hterm]
    cases horder : type.order e.term term with
    | lt =>
      obtain ⟨more, hmore, hsound', -, hunder⟩ := ih hrest
      refine ⟨e :: more, ?_, List.forall_mem_cons.2 ⟨he, hsound'⟩, List.cons_ne_nil _ _, ?_⟩
      · change (return e :: (← insertEntry type term token rest)) = _
        rw [hmore]
        rfl
      · intro value t
        rw [under_cons, hunder, under_cons]
        exact or_left_comm
    | eq =>
      refine ⟨_, rfl, List.forall_mem_cons.2 ⟨he, hrest⟩, List.cons_ne_nil _ _, fun value t => ?_⟩
      have hsame : type.order term value = type.order e.term value :=
        (Std.TransCmp.congr_left horder).symm
      rw [under_cons, under_cons, TokenSet.mem_insert, hsame, and_or_left, or_assoc]
    | gt =>
      refine ⟨_, rfl, List.forall_mem_cons.2 ⟨hterm, hsound⟩, List.cons_ne_nil _ _, ?_⟩
      intro value t
      rw [under_cons, List.mem_singleton]

theorem lookup_malformed {e : Entry} (he : type.WellFormed e.term)
    (hterm : ¬ type.WellFormed term) :
    lookup type term (e :: entries) = .error (.badWidth term.length) := by
  rw [lookup, ValueType.compare_malformed fun h => hterm h.2, if_pos he]
  rfl

theorem lookup_spoilt {e : Entry} (he : ¬ type.WellFormed e.term) :
    lookup type term (e :: entries) = .error (.badWidth e.term.length) := by
  rw [lookup, ValueType.compare_malformed fun h => he h.1, if_neg he]
  rfl

/-- A memtable that takes just the well-formed values. -/
structure Sane (p : Postings) : Prop where
  sorted : p.Sorted
  sound : Sound p.type p.entries
  filled : p.entries ≠ []

theorem Sane.refuses (hp : p.Sane) (hvalue : ¬ p.type.WellFormed value) (token : Token) :
    p.add value token = .error (.badWidth value.length) := by
  obtain ⟨e, rest, hentries⟩ := List.exists_cons_of_ne_nil hp.filled
  have he := hp.sound e (hentries ▸ List.mem_cons_self)
  rw [add, lists, hentries, lookup_malformed he hvalue]
  rfl

theorem sane_add (hsorted : p.Sorted) (hsound : Sound p.type p.entries)
    (hvalue : p.type.WellFormed value) (token : Token) : ∃ p', p.add value token = .ok p' ∧
      p'.Sane ∧ p'.type = p.type ∧ ∀ v t, Under p'.type p'.entries v t ↔
        (p.type.order value v = .eq ∧ t = token) ∨ Under p.type p.entries v t := by
  obtain ⟨entries, hentries, hsound', hfilled, hunder⟩ := insertEntry_sound hsound hvalue token
  obtain ⟨listed, hlisted⟩ : ∃ listed, p.lists value token = .ok listed := by
    rw [lists, lookup_eq hsorted.rising hsound hvalue]
    exact ⟨_, rfl⟩
  obtain ⟨p', hadd⟩ : ∃ p', p.add value token = .ok p' := by
    cases listed with
    | true => exact ⟨p, add_of_listed hlisted⟩
    | false =>
      rw [add_of_not_listed hlisted, hentries]
      exact ⟨_, rfl⟩
  obtain ⟨heq, htype⟩ := insertEntry_of_add hsorted.tokened hadd
  obtain rfl : entries = p'.entries := Except.ok.inj (hentries.symm.trans heq)
  rw [← htype] at hsound'
  refine ⟨p', hadd, ⟨(sorted_add hsorted hadd).1, hsound', hfilled⟩, htype, fun v t => ?_⟩
  rw [htype]
  exact hunder v t

theorem Sane.search_value (hp : p.Sane) {c : Condition} (hc : c.predicate = .eq value)
    (hvalue : p.type.WellFormed value) : ∃ found, p.search c = .ok found ∧
      ∀ t, t ∈ found ↔ Under p.type p.entries value t := by
  have hmatching : p.matching c =
      .ok (p.entries.filter fun e => (p.type.order e.term value).isEq) := by
    rw [matching, hc]
    exact lookup_eq hp.sorted.rising hp.sound hvalue
  refine ⟨_, by rw [search, hmatching]; rfl, fun t => ?_⟩
  rw [TokenSet.mem_ofList, List.mem_flatMap]
  simp only [List.mem_filter, Ordering.isEq_iff_eq_eq, and_assoc]
  rfl

/-- A memtable whose first value is malformed. -/
def Spoilt (p : Postings) (width : Nat) : Prop :=
  ∃ e rest, p.entries = e :: rest ∧ ¬ p.type.WellFormed e.term ∧ e.term.length = width

theorem Spoilt.refuses {width : Nat} (hp : p.Spoilt width) (value : Bytes) (token : Token) :
    p.add value token = .error (.badWidth width) := by
  obtain ⟨e, rest, hentries, hterm, rfl⟩ := hp
  rw [add, lists, hentries, lookup_spoilt hterm]
  rfl

theorem Spoilt.search_value {width : Nat} (hp : p.Spoilt width) {c : Condition}
    (hc : c.predicate = .eq value) : p.search c = .error (.badWidth width) := by
  obtain ⟨e, rest, hentries, hterm, rfl⟩ := hp
  rw [search, matching, hc, hentries]
  dsimp only
  rw [lookup_spoilt hterm]
  rfl

end Postings

namespace Engine

def memtableOn? (e : Engine) (column : String) : Option Postings :=
  (e.columnIndexOn? column).map fun found => found.2.memtable

theorem columnIndexOn?_updateIndex {e : Engine} {column : String} {id : IndexId}
    {index : ColumnIndex} (h : e.columnIndexOn? column = some (id, index))
    (change : ColumnIndex → ColumnIndex) :
    (e.updateIndex id change).columnIndexOn? column = some (id, change index) := by
  have hid : e.indexOn? column = some id := by
    obtain ⟨id', hid', hindex⟩ := Option.bind_eq_some_iff.1 h
    obtain ⟨index', -, heq⟩ := Option.bind_eq_some_iff.1 hindex
    cases heq
    exact hid'
  have hindex : (e.updateIndex id change).indexes[id]? = some (change index) := by
    rw [updateIndex, Array.getElem?_modify, if_pos rfl, columnIndexOn_some h]
    rfl
  rw [columnIndexOn?]
  change (e.indexOn? column >>= _) = _
  rw [hid]
  change ((e.updateIndex id change).indexes[id]? >>= _) = _
  rw [hindex]
  rfl

end Engine

namespace Catalog

variable {e : Engine} {column : String} {p p' : Postings} {value : Bytes} {token : Token}

theorem enter_ok (h : e.memtableOn? column = some p) (hadd : p.add value token = .ok p') :
    ∃ e', enter token column value e = (.ok (.ok ()), e') ∧ e'.memtableOn? column = some p' := by
  obtain ⟨⟨id, index⟩, hon, rfl⟩ := Option.map_eq_some_iff.1 h
  refine ⟨e.updateIndex id fun index => { index with memtable := p' }, ?_, ?_⟩
  · rw [enter, Act.bind_apply]
    dsimp only [Act.get_apply]
    rw [hon]
    dsimp only at hadd ⊢
    rw [hadd]
    rfl
  · rw [Engine.memtableOn?, Engine.columnIndexOn?_updateIndex hon]
    rfl

theorem enter_error {f : Fault} (h : e.memtableOn? column = some p)
    (hadd : p.add value token = .error f) : enter token column value e = (.error f, e) := by
  obtain ⟨⟨id, index⟩, hon, rfl⟩ := Option.map_eq_some_iff.1 h
  rw [enter, Act.bind_apply]
  dsimp only [Act.get_apply]
  rw [hon]
  dsimp only at hadd ⊢
  rw [hadd]
  rfl

/-- What entering some rows comes to, one after the other, whatever becomes of those before. -/
def enterEach (column : String) : List (Token × Bytes) → Engine →
    List (Except Fault Status) × Engine
  | [], e => ([], e)
  | (token, value) :: rest, e =>
    let (result, e) := enter token column value e
    let (results, e) := enterEach column rest e
    (result :: results, e)

/-- What an attempt to enter a value comes to where only well-formed values are. -/
def verdict (type : ValueType) (value : Bytes) : Except Fault Status :=
  if type.WellFormed value then .ok (.ok ()) else .error (.badWidth value.length)

/-- The rows that well-formed values brought under a value. -/
def Brought (type : ValueType) (rows : List (Token × Bytes)) (value : Bytes) (t : Token) : Prop :=
  ∃ row ∈ rows, type.WellFormed row.2 ∧ type.order row.2 value = .eq ∧ t = row.1

/-- A sane memtable takes what is well formed and refuses the rest, whatever the order. -/
theorem enterEach_sane (rows : List (Token × Bytes)) (h : e.memtableOn? column = some p)
    (hp : p.Sane) : (enterEach column rows e).1 = rows.map (fun row => verdict p.type row.2) ∧
      ∃ p', (enterEach column rows e).2.memtableOn? column = some p' ∧ p'.Sane ∧
        p'.type = p.type ∧ ∀ v t, Postings.Under p'.type p'.entries v t ↔
          Brought p.type rows v t ∨ Postings.Under p.type p.entries v t := by
  induction rows generalizing e p with
  | nil =>
    refine ⟨rfl, p, h, hp, rfl, fun v t => (or_iff_right ?_).symm⟩
    rintro ⟨row, hrow, -⟩
    cases hrow
  | cons row rest ih =>
    obtain ⟨token, value⟩ := row
    have hbrought : ∀ v t, Brought p.type ((token, value) :: rest) v t ↔
        (p.type.WellFormed value ∧ p.type.order value v = .eq ∧ t = token) ∨
          Brought p.type rest v t := fun v t => List.exists_mem_cons_iff _ _ _
    rw [enterEach, List.map_cons, verdict]
    by_cases hvalue : p.type.WellFormed value
    · obtain ⟨p₁, hadd, hsane, htype, hunder⟩ :=
        Postings.sane_add hp.sorted hp.sound hvalue token
      obtain ⟨e₁, henter, h₁⟩ := enter_ok h hadd
      obtain ⟨hresults, p', h', hsane', htype', hunder'⟩ := ih h₁ hsane
      rw [htype] at hresults hunder' htype'
      rw [henter, if_pos hvalue]
      refine ⟨congrArg _ hresults, p', h', hsane', htype', fun v t => ?_⟩
      rw [hunder', ← htype, hunder, htype, hbrought]
      simp only [hvalue, true_and]
      exact or_left_comm.trans or_assoc.symm
    · obtain ⟨hresults, p', h', hsane', htype', hunder'⟩ := ih h hp
      rw [enter_error h (hp.refuses hvalue token), if_neg hvalue]
      refine ⟨congrArg _ hresults, p', h', hsane', htype', fun v t => ?_⟩
      rw [hunder', hbrought]
      simp only [hvalue, false_and, false_or]

/-- A spoilt memtable refuses everything. -/
theorem enterEach_spoilt {width : Nat} (rows : List (Token × Bytes))
    (h : e.memtableOn? column = some p) (hp : p.Spoilt width) :
    enterEach column rows e = (rows.map fun _ => .error (.badWidth width), e) := by
  induction rows with
  | nil => rfl
  | cons row rest ih =>
    rw [enterEach, enter_error h (hp.refuses row.2 row.1)]
    dsimp only
    rw [ih]
    rfl

section

variable {row : Token × Bytes} (rows : List (Token × Bytes)) (h : e.memtableOn? column = some p)
  (hempty : p.entries = [])
include h hempty

/-- If the first value is well formed, all well-formed values are taken and found, and each of the
others is refused. -/
theorem enterEach_of_wellFormed (hsorted : p.Sorted) (hrow : p.type.WellFormed row.2) :
    (enterEach column (row :: rows) e).1 = (row :: rows).map (fun row => verdict p.type row.2) ∧
      ∃ p', (enterEach column (row :: rows) e).2.memtableOn? column = some p' ∧
        ∀ (c : Condition) v, c.predicate = .eq v → p.type.WellFormed v →
          ∃ found, p'.search c = .ok found ∧ ∀ t, t ∈ found ↔ Brought p.type (row :: rows) v t := by
  have hsound : Postings.Sound p.type p.entries := by
    rw [hempty]
    exact fun _ he => (List.not_mem_nil he).elim
  obtain ⟨p₁, hadd, hsane, htype, hunder⟩ := Postings.sane_add hsorted hsound hrow row.1
  obtain ⟨e₁, henter, h₁⟩ := enter_ok h hadd
  obtain ⟨hresults, p', h', hsane', htype', hunder'⟩ := enterEach_sane rows h₁ hsane
  rw [enterEach, henter]
  rw [htype] at hresults hunder' htype'
  refine ⟨?_, p', h', fun c v hc hv => ?_⟩
  · rw [List.map_cons, verdict, if_pos hrow]
    exact congrArg _ hresults
  · obtain ⟨found, hfound, hmem⟩ := hsane'.search_value hc (htype'.symm ▸ hv)
    refine ⟨found, hfound, fun t => ?_⟩
    have hnone : ¬ Postings.Under p.type p.entries v t := by
      rw [hempty]
      rintro ⟨_, he, -⟩
      cases he
    have hfirst : Postings.Under p.type p₁.entries v t ↔
        p.type.order row.2 v = .eq ∧ t = row.1 := by
      rw [← htype, hunder, htype, or_iff_left hnone]
    have hbrought : Brought p.type (row :: rows) v t ↔
        (p.type.WellFormed row.2 ∧ p.type.order row.2 v = .eq ∧ t = row.1) ∨
          Brought p.type rows v t := List.exists_mem_cons_iff _ _ _
    rw [hmem, hunder', hfirst, hbrought, and_iff_right hrow]
    exact or_comm

/-- If it is malformed it is taken, and from then on nothing is taken and nothing is found. -/
theorem enterEach_of_malformed (hrow : ¬ p.type.WellFormed row.2) :
    (enterEach column (row :: rows) e).1 =
        .ok (.ok ()) :: rows.map (fun _ => .error (.badWidth row.2.length)) ∧
      ∃ p', (enterEach column (row :: rows) e).2.memtableOn? column = some p' ∧
        p'.entries = [⟨row.2, [row.1]⟩] ∧
        ∀ (c : Condition) v, c.predicate = .eq v →
          p'.search c = .error (.badWidth row.2.length) := by
  have hadd : p.add row.2 row.1 =
      .ok ({ p with entries := [⟨row.2, [row.1]⟩] }.counting row.1) := by
    rw [Postings.add, Postings.lists, hempty]
    rfl
  have hspoilt : ({ p with entries := [⟨row.2, [row.1]⟩] }.counting row.1).Spoilt row.2.length :=
    ⟨_, [], rfl, hrow, rfl⟩
  obtain ⟨e₁, henter, h₁⟩ := enter_ok h hadd
  rw [enterEach, henter]
  dsimp only
  rw [enterEach_spoilt rows h₁ hspoilt]
  exact ⟨rfl, _, h₁, rfl, fun c v hc => hspoilt.search_value hc⟩

end

/-- One byte is not a number. Once it is in, the number one is refused. -/
example : ((enterEach "n" [(1, [120]), (2, Bigint.encode 1)]
    (Operation.effects [.register "n" (some .bigint), .createIndex "n"] {})).1.map
      fun result => result.toOption.isSome) = [true, false] := by
  decide +kernel

end Catalog
end SecondaryIndex
