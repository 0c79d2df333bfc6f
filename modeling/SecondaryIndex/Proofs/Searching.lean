import Mathlib.Data.List.TakeWhile
import SecondaryIndex.Postings
import SecondaryIndex.Proofs.Order

namespace SecondaryIndex

namespace Condition

/-- A condition that can be made on a column of its type. -/
structure WellFormed (c : Condition) : Prop where
  lower : ∀ b, c.predicate.lower = some b → c.type.WellFormed b.value
  upper : ∀ b, c.predicate.upper = some b → c.type.WellFormed b.value
  textual : ∀ v, c.predicate = .startsWith v ∨ c.predicate = .contains v → c.type.isTextual = true

def meets (c : Condition) (value : Bytes) : Bool := (c.accepts value).toOption.getD false

def clears (type : ValueType) (bound : Option Bound) (value : Bytes) : Bool :=
  bound.all fun b => type.below b.value value || b.inclusive && !type.below value b.value

def keeps (type : ValueType) (bound : Option Bound) (value : Bytes) : Bool :=
  bound.all fun b => type.below value b.value || b.inclusive && !type.below b.value value

variable {type : ValueType} {bound : Option Bound} {value : Bytes} {c : Condition}

theorem clearsLower_eq (hb : ∀ b, bound = some b → type.WellFormed b.value)
    (hv : type.WellFormed value) :
    clearsLower type bound value = .ok (clears type bound value) := by
  cases bound with
  | none => rfl
  | some b =>
    rw [clearsLower, ValueType.compare_of_wellFormed hv (hb b rfl)]
    have hswap : type.order b.value value = (type.order value b.value).swap :=
      Std.OrientedCmp.eq_swap
    simp only [clears, Option.all_some, ValueType.below, hswap]
    cases type.order value b.value <;> cases b.inclusive <;> rfl

theorem clearsUpper_eq (hb : ∀ b, bound = some b → type.WellFormed b.value)
    (hv : type.WellFormed value) : clearsUpper type bound value = .ok (keeps type bound value) := by
  cases bound with
  | none => rfl
  | some b =>
    rw [clearsUpper, ValueType.compare_of_wellFormed hv (hb b rfl)]
    have hswap : type.order b.value value = (type.order value b.value).swap :=
      Std.OrientedCmp.eq_swap
    simp only [keeps, Option.all_some, ValueType.below, hswap]
    cases type.order value b.value <;> cases b.inclusive <;> rfl

namespace WellFormed

variable {v : Bytes} {lower upper : Option Bound}

theorem operand (hc : c.WellFormed) (hp : c.predicate = .eq v ∨ c.predicate = .notEq v) :
    c.type.WellFormed v := by
  refine hc.lower ⟨v, true⟩ ?_
  rcases hp with hp | hp <;> rw [hp] <;> rfl

theorem range_lower (hc : c.WellFormed) (hp : c.predicate = .range lower upper) :
    ∀ b, lower = some b → c.type.WellFormed b.value :=
  fun b hb => hc.lower b (by rw [hp]; exact hb)

theorem range_upper (hc : c.WellFormed) (hp : c.predicate = .range lower upper) :
    ∀ b, upper = some b → c.type.WellFormed b.value :=
  fun b hb => hc.upper b (by rw [hp]; exact hb)

theorem ne_bigint (hc : c.WellFormed) (hp : c.predicate = .startsWith v) : c.type ≠ .bigint := by
  intro h
  have htextual := hc.textual v (.inl hp)
  rw [h] at htextual
  cases htextual

end WellFormed

theorem not_below_of_clears {b : Bound} (h : clears type (some b) value = true) :
    type.below value b.value = false := by
  rw [clears, Option.all_some, Bool.or_eq_true, Bool.and_eq_true, Bool.not_eq_true'] at h
  rcases h with h | h
  · exact (ValueType.weak_below type).asymm trivial trivial h
  · exact h.2

theorem not_below_of_keeps {b : Bound} (h : keeps type (some b) value = true) :
    type.below b.value value = false := by
  rw [keeps, Option.all_some, Bool.or_eq_true, Bool.and_eq_true, Bool.not_eq_true'] at h
  rcases h with h | h
  · exact (ValueType.weak_below type).asymm trivial trivial h
  · exact h.2

theorem accepts_eq_value {v : Bytes} (hc : c.WellFormed) (hp : c.predicate = .eq v)
    (hv : c.type.WellFormed value) : c.accepts value = .ok (c.type.order value v).isEq := by
  rw [accepts, hp]
  dsimp only
  rw [ValueType.compare_of_wellFormed hv (hc.operand (.inl hp))]
  rfl

theorem accepts_notEq {v : Bytes} (hc : c.WellFormed) (hp : c.predicate = .notEq v)
    (hv : c.type.WellFormed value) : c.accepts value = .ok (!(c.type.order value v).isEq) := by
  rw [accepts, hp]
  dsimp only
  rw [ValueType.compare_of_wellFormed hv (hc.operand (.inr hp))]
  rfl

theorem accepts_range {lower upper : Option Bound} (hc : c.WellFormed)
    (hp : c.predicate = .range lower upper) (hv : c.type.WellFormed value) :
    c.accepts value = .ok (clears c.type lower value && keeps c.type upper value) := by
  rw [accepts, hp]
  dsimp only
  rw [clearsLower_eq (hc.range_lower hp) hv, clearsUpper_eq (hc.range_upper hp) hv]
  cases clears c.type lower value <;> rfl

theorem accepts_eq (hc : c.WellFormed) (hv : c.type.WellFormed value) :
    c.accepts value = .ok (c.meets value) := by
  suffices h : ∃ r, c.accepts value = .ok r by
    obtain ⟨r, hr⟩ := h
    rw [meets, hr]
    rfl
  cases hp : c.predicate with
  | eq v => exact ⟨_, accepts_eq_value hc hp hv⟩
  | notEq v => exact ⟨_, accepts_notEq hc hp hv⟩
  | range lower upper => exact ⟨_, accepts_range hc hp hv⟩
  | startsWith v =>
    rw [accepts, hp]
    exact ⟨_, rfl⟩
  | contains v =>
    rw [accepts, hp]
    exact ⟨_, rfl⟩

theorem meets_range {lower upper : Option Bound} (hc : c.WellFormed)
    (hp : c.predicate = .range lower upper) (hv : c.type.WellFormed value) :
    c.meets value = (clears c.type lower value && keeps c.type upper value) := by
  rw [meets, accepts_range hc hp hv]
  rfl

theorem meets_eq {v : Bytes} (hc : c.WellFormed) (hp : c.predicate = .eq v)
    (hv : c.type.WellFormed value) : c.meets value = (c.type.order value v).isEq := by
  rw [meets, accepts_eq_value hc hp hv]
  rfl

theorem meets_startsWith {start : Bytes} (hp : c.predicate = .startsWith start) :
    c.meets value = value.startsWith start := by
  rw [meets, accepts, hp]
  rfl

end Condition

/-- What comes first among some values. It is missing just if there are none. -/
def Foremost {α : Type} (le : α → α → Prop) (values : List α) : Option α → Prop
  | none => values = []
  | some v => v ∈ values ∧ ∀ w ∈ values, le v w

namespace Foremost

variable {α : Type} {le : α → α → Prop} {values values' : List α} {first first' : Option α}

theorem head? (hrefl : ∀ v, le v v) (h : values.Pairwise le) : Foremost le values values.head? := by
  cases values with
  | nil => exact rfl
  | cons v rest =>
    exact ⟨List.mem_cons_self, List.forall_mem_cons.2 ⟨hrefl v, (List.pairwise_cons.1 h).1⟩⟩

theorem eq_none_iff (h : Foremost le values first) : first = none ↔ values = [] := by
  cases first with
  | none => exact ⟨fun _ => h, fun _ => rfl⟩
  | some v => exact ⟨nofun, fun hnil => (List.ne_nil_of_mem h.1 hnil).elim⟩

theorem exists_eq_some (h : Foremost le values first) (hne : values ≠ []) : ∃ v, first = some v :=
  Option.ne_none_iff_exists'.1 fun hnone => hne (h.eq_none_iff.1 hnone)

theorem congr (h : Foremost le values first) (hmem : ∀ v, v ∈ values ↔ v ∈ values') :
    Foremost le values' first := by
  cases first with
  | none =>
    apply List.eq_nil_iff_forall_not_mem.2
    intro v hv
    rw [← hmem, show values = [] from h] at hv
    exact List.not_mem_nil hv
  | some v => exact ⟨(hmem v).1 h.1, fun w hw => h.2 w ((hmem w).2 hw)⟩

theorem unique (hanti : ∀ v w, le v w → le w v → v = w) (h : Foremost le values first)
    (h' : Foremost le values first') : first = first' := by
  cases first with
  | none => exact (h'.eq_none_iff.2 h).symm
  | some v =>
    cases first' with
    | none => exact h.eq_none_iff.2 h'
    | some w => rw [hanti v w (h.2 w h'.1) (h'.2 v h.1)]

theorem cons {pick : α → α → α} (hrefl : ∀ v, le v v) (htrans : ∀ u v w, le u v → le v w → le u w)
    (hpick : ∀ v w, pick v w = v ∧ le v w ∨ pick v w = w ∧ le w v)
    (h : Foremost le values first) (v : α) :
    Foremost le (v :: values) (some (first.elim v (pick v))) := by
  cases first with
  | none =>
    rw [show values = [] from h]
    exact ⟨List.mem_cons_self, List.forall_mem_singleton.2 (hrefl v)⟩
  | some w =>
    rw [Option.elim_some]
    rcases hpick v w with ⟨heq, hle⟩ | ⟨heq, hle⟩
    · rw [heq]
      refine ⟨List.mem_cons_self, List.forall_mem_cons.2 ⟨hrefl v, fun u hu => ?_⟩⟩
      exact htrans v w u hle (h.2 u hu)
    · rw [heq]
      exact ⟨List.mem_cons_of_mem v h.1, List.forall_mem_cons.2 ⟨hle, h.2⟩⟩

end Foremost

namespace Postings

def Rising (type : ValueType) (entries : List Entry) : Prop :=
  entries.Pairwise fun a b => type.compare a.term b.term = .ok .lt

def Tokened (entries : List Entry) : Prop :=
  ∀ e ∈ entries, e.tokens ≠ [] ∧ e.tokens.Pairwise (· < ·)

variable {type : ValueType} {term : Bytes} {token : Token} {entries entries' : List Entry}
  {e : Entry}

theorem compare_lt_trans {a b c : Bytes} (hab : type.compare a b = .ok .lt)
    (hbc : type.compare b c = .ok .lt) : type.compare a c = .ok .lt := by
  rw [ValueType.compare_eq_ok] at hab hbc ⊢
  exact ⟨hab.1, hbc.2.1, Std.TransCmp.lt_trans hab.2.2 hbc.2.2⟩

theorem compare_swap {a b : Bytes} {o : Ordering} (h : type.compare a b = .ok o) :
    type.compare b a = .ok o.swap := by
  rw [ValueType.compare_eq_ok] at h ⊢
  refine ⟨h.2.1, h.1, ?_⟩
  have hswap : type.order b a = (type.order a b).swap := Std.OrientedCmp.eq_swap
  rw [hswap, h.2.2]

theorem term_of_mem_insertEntry (h : insertEntry type term token entries = .ok entries')
    (he : e ∈ entries') : e.term = term ∨ ∃ e' ∈ entries, e'.term = e.term := by
  induction entries generalizing entries' with
  | nil =>
    cases h
    rw [List.mem_singleton.1 he]
    exact .inl rfl
  | cons first rest ih =>
    obtain ⟨o, -, h⟩ := bind_eq_ok.1 h
    cases o with
    | lt =>
      obtain ⟨more, hmore, h⟩ := bind_eq_ok.1 h
      cases h
      rcases List.mem_cons.1 he with rfl | he
      · exact .inr ⟨e, List.mem_cons_self, rfl⟩
      · refine (ih hmore he).imp_right ?_
        rintro ⟨e', he', hterm⟩
        exact ⟨e', List.mem_cons_of_mem first he', hterm⟩
    | eq =>
      cases h
      rcases List.mem_cons.1 he with rfl | he
      · exact .inr ⟨first, List.mem_cons_self, rfl⟩
      · exact .inr ⟨e, List.mem_cons_of_mem first he, rfl⟩
    | gt =>
      cases h
      rcases List.mem_cons.1 he with rfl | he
      · exact .inl rfl
      · exact .inr ⟨e, he, rfl⟩

theorem rising_insertEntry (hrising : Rising type entries)
    (h : insertEntry type term token entries = .ok entries') : Rising type entries' := by
  induction entries generalizing entries' with
  | nil =>
    cases h
    exact List.pairwise_singleton _ _
  | cons first rest ih =>
    have hrest := List.pairwise_cons.1 hrising
    obtain ⟨o, ho, h⟩ := bind_eq_ok.1 h
    cases o with
    | lt =>
      obtain ⟨more, hmore, h⟩ := bind_eq_ok.1 h
      cases h
      refine List.pairwise_cons.2 ⟨fun e he => ?_, ih hrest.2 hmore⟩
      rcases term_of_mem_insertEntry hmore he with hterm | ⟨e', he', hterm⟩
      · rw [hterm]
        exact ho
      · rw [← hterm]
        exact hrest.1 e' he'
    | eq =>
      cases h
      exact List.pairwise_cons.2 hrest
    | gt =>
      cases h
      refine List.pairwise_cons.2 ⟨fun e he => ?_, hrising⟩
      rcases List.mem_cons.1 he with rfl | he
      · exact compare_swap ho
      · exact compare_lt_trans (compare_swap ho) (hrest.1 e he)

theorem tokened_insertEntry (htokened : Tokened entries)
    (h : insertEntry type term token entries = .ok entries') : Tokened entries' := by
  have hsingle : ([token] : List Token) ≠ [] ∧ [token].Pairwise (· < ·) :=
    ⟨List.cons_ne_nil _ _, List.pairwise_singleton _ _⟩
  induction entries generalizing entries' with
  | nil =>
    cases h
    exact List.forall_mem_singleton.2 hsingle
  | cons first rest ih =>
    obtain ⟨hfirst, hrest⟩ := List.forall_mem_cons.1 htokened
    obtain ⟨o, -, h⟩ := bind_eq_ok.1 h
    cases o with
    | lt =>
      obtain ⟨more, hmore, h⟩ := bind_eq_ok.1 h
      cases h
      exact List.forall_mem_cons.2 ⟨hfirst, ih hrest hmore⟩
    | eq =>
      cases h
      refine List.forall_mem_cons.2 ⟨⟨?_, TokenSet.pairwise_insert hfirst.2⟩, hrest⟩
      exact List.ne_nil_of_mem (TokenSet.mem_insert.2 (.inl rfl))
    | gt =>
      cases h
      exact List.forall_mem_cons.2 ⟨hsingle, htokened⟩

structure Sorted (p : Postings) : Prop where
  rising : Rising p.type p.entries
  tokened : Tokened p.entries

theorem insertEntry_of_lookup (htokened : Tokened entries) {found : List Entry}
    (hfound : lookup type term entries = .ok found)
    (hlisted : (found.any fun e => e.tokens.contains token) = true) :
    insertEntry type term token entries = .ok entries := by
  induction entries with
  | nil =>
    cases hfound
    cases hlisted
  | cons first rest ih =>
    obtain ⟨hfirst, hrest⟩ := List.forall_mem_cons.1 htokened
    obtain ⟨o, ho, hfound⟩ := bind_eq_ok.1 hfound
    rw [insertEntry, ho]
    cases o with
    | lt =>
      change (return first :: (← insertEntry type term token rest)) = _
      rw [ih hrest hfound]
      rfl
    | eq =>
      cases hfound
      have hmem : token ∈ first.tokens := by simpa using hlisted
      change Except.ok (⟨first.term, TokenSet.insert token first.tokens⟩ :: rest) = _
      rw [TokenSet.insert_of_mem hfirst.2 hmem]
    | gt =>
      cases hfound
      cases hlisted

theorem insertEntry_of_add {p p' : Postings} (htokened : Tokened p.entries)
    (h : p.add term token = .ok p') :
    insertEntry p.type term token p.entries = .ok p'.entries ∧ p'.type = p.type := by
  rcases add_eq_ok h with ⟨hlisted, rfl⟩ | ⟨-, entries, hentries, rfl⟩
  · obtain ⟨found, hfound, hany⟩ := bind_eq_ok.1 hlisted
    exact ⟨insertEntry_of_lookup htokened hfound (Except.ok.inj hany), rfl⟩
  · exact ⟨hentries, rfl⟩

theorem sorted_add {p p' : Postings} (hp : p.Sorted) (h : p.add term token = .ok p') :
    p'.Sorted ∧ p'.type = p.type := by
  obtain ⟨hentries, htype⟩ := insertEntry_of_add hp.tokened h
  refine ⟨⟨?_, tokened_insertEntry hp.tokened hentries⟩, htype⟩
  rw [htype]
  exact rising_insertEntry hp.rising hentries

theorem sorted_addAll {p p' : Postings} {pairs : List (Bytes × Token)} (hp : p.Sorted)
    (h : p.addAll pairs = .ok p') : p'.Sorted ∧ p'.type = p.type := by
  induction pairs generalizing p with
  | nil =>
    cases h
    exact ⟨hp, rfl⟩
  | cons pair rest ih =>
    obtain ⟨p₁, hadd, h⟩ := bind_eq_ok.1 h
    obtain ⟨hp₁, htype₁⟩ := sorted_add hp hadd
    obtain ⟨hp', htype'⟩ := ih hp₁ h
    exact ⟨hp', htype'.trans htype₁⟩

theorem sorted_empty (type : ValueType) : ({ type } : Postings).Sorted :=
  ⟨.nil, fun _ h => (List.not_mem_nil h).elim⟩

theorem pairwise_terms (hrising : Rising type entries) :
    (entries.map Entry.term).Pairwise fun a b => type.order a b = .lt :=
  hrising.map _ fun _ _ hab => (ValueType.compare_eq_ok.1 hab).2.2

theorem isLE_of_eq_lt {a b : Bytes} (h : type.order a b = .lt) : (type.order a b).isLE := by
  rw [h]
  rfl

theorem foremost_minTerm {p : Postings} (hrising : Rising type p.entries) :
    Foremost (fun a b => (type.order a b).isLE) (p.entries.map Entry.term) p.minTerm := by
  rw [minTerm, ← List.head?_map]
  exact Foremost.head? (fun _ => Std.ReflCmp.isLE_rfl) ((pairwise_terms hrising).imp isLE_of_eq_lt)

theorem foremost_maxTerm {p : Postings} (hrising : Rising type p.entries) :
    Foremost (fun a b => (type.order b a).isLE) (p.entries.map Entry.term) p.maxTerm := by
  have hfalling : (p.entries.map Entry.term).reverse.Pairwise fun a b => (type.order b a).isLE :=
    List.pairwise_reverse.2 ((pairwise_terms hrising).imp isLE_of_eq_lt)
  rw [maxTerm, ← List.getLast?_map, ← List.head?_reverse]
  exact (Foremost.head? (fun _ => Std.ReflCmp.isLE_rfl) hfalling).congr fun _ => List.mem_reverse

def Sound (type : ValueType) (entries : List Entry) : Prop :=
  ∀ e ∈ entries, type.WellFormed e.term

theorem sound_of_head (hrising : Rising type entries)
    (hhead : ∀ e, entries.head? = some e → type.WellFormed e.term) : Sound type entries := by
  cases entries with
  | nil => exact fun _ h => (List.not_mem_nil h).elim
  | cons first rest =>
    refine List.forall_mem_cons.2 ⟨hhead first rfl, fun e he => ?_⟩
    exact (ValueType.compare_eq_ok.1 ((List.pairwise_cons.1 hrising).1 e he)).2.1

theorem pairwise_test (test : Bytes → Bool) (hrising : Rising type entries)
    (h : ∀ a b, type.order a b = .lt → test b = true → test a = true) :
    entries.Pairwise fun a b => test b.term = true → test a.term = true :=
  hrising.imp fun hab => h _ _ (ValueType.compare_eq_ok.1 hab).2.2

theorem countWhile_eq {test : Bytes → Except Fault Bool} (test' : Bytes → Bool)
    (h : ∀ e ∈ entries, test e.term = .ok (test' e.term)) :
    countWhile test entries = .ok (entries.takeWhile fun e => test' e.term).length := by
  induction entries with
  | nil => rfl
  | cons e rest ih =>
    obtain ⟨he, hrest⟩ := List.forall_mem_cons.1 h
    rw [countWhile, he, List.takeWhile_cons]
    cases test' e.term with
    | true =>
      change (countWhile test rest >>= _) = _
      rw [ih hrest]
      rfl
    | false => rfl

theorem accepted_eq {c : Condition} (hc : c.WellFormed) (hsound : Sound c.type entries) :
    accepted c entries = .ok (entries.filter fun e => c.meets e.term) := by
  induction entries with
  | nil => rfl
  | cons e rest ih =>
    obtain ⟨he, hrest⟩ := List.forall_mem_cons.1 hsound
    rw [accepted, Condition.accepts_eq hc he, ih hrest, List.filter_cons]
    cases c.meets e.term <;> rfl

theorem lookup_eq (hrising : Rising type entries) (hsound : Sound type entries)
    (hterm : type.WellFormed term) :
    lookup type term entries = .ok (entries.filter fun e => (type.order e.term term).isEq) := by
  induction entries with
  | nil => rfl
  | cons e rest ih =>
    obtain ⟨he, hrest⟩ := List.forall_mem_cons.1 hsound
    obtain ⟨hfirst, hrising⟩ := List.pairwise_cons.1 hrising
    -- Behind a term that is not below the one looked for, all terms are above it.
    have hnone : (type.order term e.term).isLE → rest.filter
        (fun e => (type.order e.term term).isEq) = [] := by
      intro hle
      apply List.filter_eq_nil_iff.2
      intro e' he' heq
      have hlt := (ValueType.compare_eq_ok.1 (hfirst e' he')).2.2
      have hbelow := Std.TransCmp.lt_of_isLE_of_lt hle hlt
      rw [Ordering.isEq_iff_eq_eq, Std.OrientedCmp.eq_comm, hbelow] at heq
      cases heq
    rw [lookup, ValueType.compare_of_wellFormed he hterm, List.filter_cons]
    have hswap : type.order term e.term = (type.order e.term term).swap := Std.OrientedCmp.eq_swap
    rw [hswap] at hnone
    cases ho : type.order e.term term with
    | lt => exact ih hrising hrest
    | eq =>
      rw [hnone (by rw [ho]; rfl)]
      rfl
    | gt =>
      rw [hnone (by rw [ho]; rfl)]
      rfl

section

variable {α : Type} {l : List α} {p q : α → Bool}

theorem filter_drop {n : Nat} (h : ∀ a ∈ l.take n, q a = false) :
    (l.drop n).filter q = l.filter q := by
  have hnone : (l.take n).filter q = [] :=
    List.filter_eq_nil_iff.2 fun a ha => Bool.eq_false_iff.1 (h a ha)
  conv_rhs => rw [← List.take_append_drop n l, List.filter_append, hnone, List.nil_append]

theorem filter_take {n : Nat} (h : ∀ a ∈ l.drop n, q a = false) :
    (l.take n).filter q = l.filter q := by
  have hnone : (l.drop n).filter q = [] :=
    List.filter_eq_nil_iff.2 fun a ha => Bool.eq_false_iff.1 (h a ha)
  conv_rhs => rw [← List.take_append_drop n l, List.filter_append, hnone, List.append_nil]

theorem of_mem_take_takeWhile {a : α} (ha : a ∈ l.take (l.takeWhile p).length) : p a = true := by
  rw [← List.prefix_iff_eq_take.1 (List.takeWhile_prefix p)] at ha
  exact List.mem_takeWhile_imp ha

theorem of_mem_drop_takeWhile (hmono : l.Pairwise fun a b => p b = true → p a = true) {a : α}
    (ha : a ∈ l.drop (l.takeWhile p).length) : p a = false := by
  induction l with
  | nil => exact (List.not_mem_nil ha).elim
  | cons first rest ih =>
    obtain ⟨hfirst, hrest⟩ := List.pairwise_cons.1 hmono
    by_cases hp : p first = true
    · rw [List.takeWhile_cons_of_pos hp] at ha
      exact ih hrest ha
    · rw [List.takeWhile_cons_of_neg hp] at ha
      rcases List.mem_cons.1 ha with rfl | ha
      · exact Bool.not_eq_true _ ▸ hp
      · exact Bool.eq_false_iff.2 fun ha' => hp (hfirst a ha ha')

end

variable {p : Postings} {c : Condition}

theorem countBelow_eq {bound : Bytes} (hsound : Sound p.type p.entries)
    (hbound : p.type.WellFormed bound) : p.countBelow bound =
      .ok (p.entries.takeWhile fun e => p.type.below e.term bound).length := by
  apply countWhile_eq (fun term => p.type.below term bound)
  intro e he
  rw [ValueType.compare_of_wellFormed (hsound e he) hbound]
  rfl

theorem countUpTo_eq {bound : Bytes} (hsound : Sound p.type p.entries)
    (hbound : p.type.WellFormed bound) : p.countUpTo bound =
      .ok (p.entries.takeWhile fun e => !p.type.below bound e.term).length := by
  apply countWhile_eq (fun term => !p.type.below bound term)
  intro e he
  rw [ValueType.compare_of_wellFormed hbound (hsound e he)]
  dsimp only [ValueType.below]
  cases p.type.order bound e.term <;> rfl

theorem below_of_lt {a b bound : Bytes} (hab : type.order a b = .lt)
    (hb : type.below b bound = true) : type.below a bound = true :=
  (ValueType.weak_below type).trans trivial trivial trivial (Ordering.isLT_iff_eq_lt.2 hab) hb

/-- How many entries stand below the lower bound of a range. -/
def startOf (type : ValueType) (lower : Option Bound) (entries : List Entry) : Nat :=
  match lower with
  | some b => (entries.takeWhile fun e => type.below e.term b.value).length
  | none => 0

/-- How many entries do not stand above the upper bound of a range. -/
def stopOf (type : ValueType) (upper : Option Bound) (entries : List Entry) : Nat :=
  match upper with
  | some b => (entries.takeWhile fun e => !type.below b.value e.term).length
  | none => entries.length

theorem between_eq {lower upper : Option Bound} (hsound : Sound p.type p.entries)
    (hlower : ∀ b, lower = some b → p.type.WellFormed b.value)
    (hupper : ∀ b, upper = some b → p.type.WellFormed b.value) :
    p.between lower upper = .ok ((p.entries.take (stopOf p.type upper p.entries)).drop
      (startOf p.type lower p.entries)) := by
  unfold between
  cases lower with
  | none =>
    cases upper with
    | none => rfl
    | some b =>
      dsimp only
      rw [countUpTo_eq hsound (hupper b rfl)]
      rfl
  | some a =>
    dsimp only
    rw [countBelow_eq hsound (hlower a rfl)]
    cases upper with
    | none => rfl
    | some b =>
      dsimp only
      rw [countUpTo_eq hsound (hupper b rfl)]
      rfl

theorem not_clears_of_mem_take {lower : Option Bound}
    (he : e ∈ entries.take (startOf type lower entries)) :
    Condition.clears type lower e.term = false := by
  cases lower with
  | none => exact (List.not_mem_nil he).elim
  | some b =>
    have hbelow := of_mem_take_takeWhile he
    have habove := (ValueType.weak_below type).asymm trivial trivial hbelow
    rw [Condition.clears, Option.all_some, hbelow, habove]
    simp

theorem not_keeps_of_mem_drop {upper : Option Bound} (hrising : Rising type entries)
    (he : e ∈ entries.drop (stopOf type upper entries)) :
    Condition.keeps type upper e.term = false := by
  cases upper with
  | none =>
    rw [stopOf, List.drop_length] at he
    exact (List.not_mem_nil he).elim
  | some b =>
    have hmono : entries.Pairwise fun a a' =>
        (!type.below b.value a'.term) = true → (!type.below b.value a.term) = true := by
      refine pairwise_test (fun term => !type.below b.value term) hrising ?_
      intro a a' haa' ha'
      rw [Bool.not_eq_true'] at ha' ⊢
      have haa'' : type.below a' a = false := by
        apply ValueType.below_eq_false.2
        rw [haa']
        rfl
      exact (ValueType.weak_below type).not_before_trans trivial trivial trivial ha' haa''
    have habove : type.below b.value e.term = true := by
      simpa using of_mem_drop_takeWhile hmono he
    have hbelow := (ValueType.weak_below type).asymm trivial trivial habove
    rw [Condition.keeps, Option.all_some, hbelow, habove]
    simp

theorem filter_between {lower upper : Option Bound} (hrising : Rising type entries) :
    ((entries.take (stopOf type upper entries)).drop (startOf type lower entries)).filter
        (fun e => Condition.clears type lower e.term && Condition.keeps type upper e.term) =
      entries.filter fun e =>
        Condition.clears type lower e.term && Condition.keeps type upper e.term := by
  rw [filter_drop, filter_take]
  · intro e he
    rw [not_keeps_of_mem_drop hrising he, Bool.and_false]
  · intro e he
    have he' : e ∈ entries.take (startOf type lower entries) := by
      rw [List.take_take] at he
      exact List.take_subset_take_left _ (Nat.min_le_left _ _) he
    rw [not_clears_of_mem_take he', Bool.false_and]

/-- In the order of bytes the terms with a prefix stand together, right after those below it. -/
theorem prefixed_eq (hrising : Rising p.type p.entries) (htextual : p.type ≠ .bigint)
    (start : Bytes) :
    (p.entries.drop (p.entries.takeWhile fun e => p.type.below e.term start).length).takeWhile
        (fun e => e.term.startsWith start) =
      p.entries.filter fun e => e.term.startsWith start := by
  have hcompare : ∀ a b, p.type.order a b = Ord.compare a b :=
    fun a b => ValueType.order_of_ne_bigint htextual
  generalize hn : (p.entries.takeWhile fun e => p.type.below e.term start).length = n
  have hskipped : ∀ e ∈ p.entries.take n, e.term.startsWith start = false := by
    intro e he
    rw [← hn] at he
    have hbelow := of_mem_take_takeWhile (p := fun e : Entry => p.type.below e.term start) he
    rw [Bool.eq_false_iff]
    intro hstarts
    have hle := Bytes.isLE_of_prefix (Bytes.startsWith_iff.1 hstarts)
    rw [← hcompare] at hle
    rw [ValueType.below_eq_false.2 hle] at hbelow
    cases hbelow
  -- Between the prefix and a term that has it there are only terms that have it.
  have hmono : (p.entries.drop n).Pairwise fun a b =>
      b.term.startsWith start = true → a.term.startsWith start = true := by
    have hmono' : p.entries.Pairwise fun a b =>
        p.type.below b.term start = true → p.type.below a.term start = true :=
      pairwise_test (fun term => p.type.below term start) hrising fun a b => below_of_lt
    refine (hrising.sublist (List.drop_sublist n _)).imp_of_mem fun {a b} ha hb hab hstarts => ?_
    rw [← hn] at ha
    have habove := of_mem_drop_takeWhile hmono' ha
    have hle : (p.type.order a.term b.term).isLE := by
      rw [(ValueType.compare_eq_ok.1 hab).2.2]
      rfl
    have hge := ValueType.below_eq_false.1 habove
    rw [hcompare] at hle hge
    exact Bytes.startsWith_iff.2 (Bytes.prefix_of_between hge hle (Bytes.startsWith_iff.1 hstarts))
  rw [takeWhile_eq_filter hmono, filter_drop hskipped]

theorem matching_eq (hp : p.Sorted) (hsound : Sound p.type p.entries) (htype : c.type = p.type)
    (hc : c.WellFormed) : p.matching c = .ok (p.entries.filter fun e => c.meets e.term) := by
  have hsound' : Sound c.type p.entries := htype ▸ hsound
  rw [matching]
  cases hpredicate : c.predicate with
  | eq v =>
    have hv : p.type.WellFormed v := htype ▸ hc.operand (.inl hpredicate)
    dsimp only
    rw [lookup_eq hp.rising hsound hv]
    congr 1
    refine List.filter_congr fun e he => ?_
    rw [Condition.meets_eq hc hpredicate (hsound' e he), htype]
  | notEq v => exact accepted_eq hc hsound'
  | contains v => exact accepted_eq hc hsound'
  | range lower upper =>
    dsimp only
    rw [between_eq hsound (htype ▸ hc.range_lower hpredicate) (htype ▸ hc.range_upper hpredicate)]
    have hmeets : ∀ e ∈ p.entries, c.meets e.term =
        (Condition.clears p.type lower e.term && Condition.keeps p.type upper e.term) := by
      intro e he
      rw [Condition.meets_range hc hpredicate (hsound' e he), htype]
    have hread : ((p.entries.take (stopOf p.type upper p.entries)).drop
        (startOf p.type lower p.entries)).Sublist p.entries :=
      (List.drop_sublist _ _).trans (List.take_sublist _ _)
    refine (accepted_eq hc fun e he => hsound' e (hread.subset he)).trans ?_
    rw [List.filter_congr fun e he => hmeets e (hread.subset he), filter_between hp.rising,
      List.filter_congr hmeets]
  | startsWith start =>
    have htextual : p.type ≠ .bigint := htype ▸ hc.ne_bigint hpredicate
    have hstart : p.type.WellFormed start := fun h => absurd h htextual
    dsimp only
    rw [countBelow_eq hsound hstart]
    have hmeets : ∀ e ∈ p.entries, c.meets e.term = e.term.startsWith start :=
      fun e _ => Condition.meets_startsWith hpredicate
    change Except.ok ((p.entries.drop _).takeWhile fun e => e.term.startsWith start) = _
    rw [prefixed_eq hp.rising htextual]
    congr 1
    exact List.filter_congr fun e he => (hmeets e he).symm

/-- A search finds just the tokens under terms that meet the condition. -/
theorem search_eq (hp : p.Sorted) (hsound : Sound p.type p.entries) (htype : c.type = p.type)
    (hc : c.WellFormed) : ∃ found, p.search c = .ok found ∧ found.Pairwise (· < ·) ∧
      ∀ t, t ∈ found ↔ ∃ e ∈ p.entries, c.meets e.term = true ∧ t ∈ e.tokens := by
  refine ⟨TokenSet.ofList ((p.entries.filter fun e => c.meets e.term).flatMap Entry.tokens), ?_,
    TokenSet.pairwise_ofList _, fun t => ?_⟩
  · rw [search, matching_eq hp hsound htype hc]
    rfl
  · rw [TokenSet.mem_ofList, List.mem_flatMap]
    simp only [List.mem_filter, and_assoc]

end Postings
end SecondaryIndex
