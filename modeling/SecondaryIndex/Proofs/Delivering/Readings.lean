import SecondaryIndex.Proofs.Exactness

namespace SecondaryIndex.Query.Request

variable {r : Request} {id : SessionId} {p : Progress} {filter : Token → Bool}
  {goes : List Token → Bool} {range : KeyRange} {t : Token} {ts seen rows taken : List Token}

/-- Whether a reading of the clock finds the quota used up. -/
def IsLate (r : Request) (n : Nat) : Prop :=
  Duration.ofMilliseconds r.options.timeQuota ≤ r.clock n - r.clock 0

def lateFault (r : Request) (n : Nat) : Fault :=
  .outOfTime (r.clock n - r.clock 0) (.ofMilliseconds r.options.timeQuota)

/-- An interval of no rows is one of a single row. -/
theorem interval_eq (r : Request) : r.interval = max 1 r.options.checkpointInterval.toNat := by
  unfold interval
  split
  next hzero =>
    rw [hzero]
    rfl
  next hpos =>
    have hne : r.options.checkpointInterval.toNat ≠ 0 := fun h => hpos (UInt64.toNat_inj.1 h)
    exact (Nat.max_eq_right (Nat.one_le_iff_ne_zero.2 hne)).symm

/-- The reading that is made on the last of the rows `seen`, or before the first row. -/
def readingAt (r : Request) (seen : List Token) : Nat :=
  1 + seen.length / max 1 r.options.checkpointInterval.toNat

theorem ensures_reading (h : r.Timed id p.engine) : Ensures (r.checkpoint id) p fun
    | .ok _, p' => p' = { p with readings := p.readings + 1 } ∧ ¬ r.IsLate p.readings
    | .error f, p' => p' = { p with readings := p.readings + 1 } ∧ r.IsLate p.readings ∧
        f = r.lateFault p.readings := by
  unfold checkpoint readClock
  simp only [bind_assoc, ensures_get_bind, ensures_set_bind, pure_bind]
  rw [Loan.ensures_act, Session.checkpoint, Loan.ensures_sessionState_bind]
  dsimp only
  rw [h.quota, Session.elapsed, h.start]
  split
  next hlate => exact ⟨rfl, hlate, rfl⟩
  next htime => exact ⟨rfl, htime⟩

/-- The rows `seen` were looked at so far, and all readings were in time. -/
structure Seen (r : Request) (filter : Token → Bool) (seen : List Token) (p : Progress) : Prop where
  rows : p.rows = seen.filter filter
  scanned : p.scanned = seen.length
  readings : p.readings = 1 + r.readingAt seen
  inTime : ∀ n, 0 < n → n ≤ r.readingAt seen → ¬ r.IsLate n

/-- The reading on the last of the rows `seen` was the first that was late. -/
structure Overdue (r : Request) (filter : Token → Bool) (seen : List Token) (f : Fault)
    (p : Progress) : Prop where
  rows : p.rows = seen.dropLast.filter filter
  scanned : p.scanned = seen.length
  readings : p.readings = 1 + r.readingAt seen
  whole : max 1 r.options.checkpointInterval.toNat ∣ seen.length
  late : r.IsLate (r.readingAt seen)
  inTime : ∀ n, 0 < n → n < r.readingAt seen → ¬ r.IsLate n
  fault : f = r.lateFault (r.readingAt seen)

theorem Seen.withEngine (h : r.Seen filter seen p) (e : Engine) :
    r.Seen filter seen { p with engine := e } := ⟨h.rows, h.scanned, h.readings, h.inTime⟩

theorem Overdue.withEngine {f : Fault} (h : r.Overdue filter seen f p) (e : Engine) :
    r.Overdue filter seen f { p with engine := e } :=
  ⟨h.rows, h.scanned, h.readings, h.whole, h.late, h.inTime, h.fault⟩

theorem scanned_between {scanned readings : Nat} (hscanned : scanned = seen.length)
    (hreadings : readings = 1 + r.readingAt seen) :
    (readings - 2) * max 1 r.options.checkpointInterval.toNat ≤ scanned ∧
      scanned < (readings - 1) * max 1 r.options.checkpointInterval.toNat := by
  subst hscanned hreadings
  have hpos : 0 < max 1 r.options.checkpointInterval.toNat := Nat.le_max_left 1 _
  rw [readingAt, ← Nat.add_assoc, Nat.add_sub_cancel_left, Nat.add_right_comm,
    Nat.add_sub_cancel]
  refine ⟨Nat.div_mul_le_self _ _, ?_⟩
  rw [Nat.mul_comm, Nat.add_comm]
  exact Nat.lt_mul_div_succ _ hpos

theorem readingAt_nil (r : Request) : r.readingAt [] = 1 := by
  rw [readingAt, List.length_nil, Nat.zero_div]

theorem Seen.start (hrows : p.rows = []) (hscanned : p.scanned = 0) (hreadings : p.readings = 2)
    (htime : ¬ r.IsLate 1) : r.Seen filter [] p := by
  refine ⟨hrows, hscanned, by rw [hreadings, readingAt_nil], fun n hn hle => ?_⟩
  rw [readingAt_nil] at hle
  obtain rfl : n = 1 := by omega
  exact htime

theorem Overdue.start (hrows : p.rows = []) (hscanned : p.scanned = 0) (hreadings : p.readings = 2)
    (hlate : r.IsLate 1) : r.Overdue filter [] (r.lateFault 1) p := by
  have hfirst := r.readingAt_nil
  refine ⟨hrows, hscanned, by rw [hreadings, hfirst], Nat.dvd_zero _, ?_, fun n hn hlt => ?_, ?_⟩
  · rw [hfirst]
    exact hlate
  · rw [hfirst] at hlt
    omega
  · rw [hfirst]

/-- A further row calls for a further reading just if it completes an interval. -/
theorem readingAt_concat (r : Request) (seen : List Token) (t : Token) :
    r.readingAt (seen ++ [t]) = r.readingAt seen +
      if max 1 r.options.checkpointInterval.toNat ∣ (seen ++ [t]).length then 1 else 0 := by
  unfold readingAt
  rw [List.length_append, List.length_singleton, Nat.succ_div, Nat.add_assoc]

theorem Seen.ensures_scan (hp : r.Seen filter seen p) (h : r.Timed id p.engine) (t : Token) :
    Ensures (r.scan id) p fun
      | .ok _, p' => p'.engine = p.engine ∧ p'.rows = p.rows ∧
          ∀ rows, rows = (seen ++ [t]).filter filter →
            r.Seen filter (seen ++ [t]) { p' with rows }
      | .error f, p' => r.Overdue filter (seen ++ [t]) f p' := by
  have hscanned : p.scanned + 1 = (seen ++ [t]).length := by
    rw [hp.scanned, List.length_append, List.length_singleton]
  have hreading := r.readingAt_concat seen t
  unfold scan
  rw [ensures_modify_bind, ensures_get_bind]
  dsimp only
  rw [hscanned, interval_eq]
  by_cases hwhole : (seen ++ [t]).length % max 1 r.options.checkpointInterval.toNat = 0
  · have hdvd := Nat.dvd_of_mod_eq_zero hwhole
    rw [if_pos hdvd] at hreading
    have hnext : p.readings = r.readingAt (seen ++ [t]) := by
      rw [hp.readings, hreading, Nat.add_comm]
    rw [if_pos hwhole]
    refine (ensures_reading (p := { p with scanned := (seen ++ [t]).length }) h).mono ?_
    rintro (f | _) p' hp'
    · obtain ⟨rfl, hlate, rfl⟩ := hp'
      dsimp only at hlate
      rw [hnext] at hlate
      refine ⟨?_, rfl, ?_, hdvd, hlate, fun n hn hlt => ?_, by rw [hnext]⟩
      · rw [List.dropLast_concat]
        exact hp.rows
      · rw [hnext, Nat.add_comm]
      · exact hp.inTime n hn (by omega)
    · obtain ⟨rfl, htime⟩ := hp'
      dsimp only at htime
      rw [hnext] at htime
      refine ⟨rfl, rfl, fun rows hrows => ⟨hrows, rfl, by rw [hnext, Nat.add_comm], ?_⟩⟩
      intro n hn hle
      by_cases hlast : n = r.readingAt (seen ++ [t])
      · rw [hlast]
        exact htime
      · exact hp.inTime n hn (by omega)
  · rw [if_neg hwhole]
    rw [if_neg fun hdvd => hwhole (Nat.mod_eq_zero_of_dvd hdvd), Nat.add_zero] at hreading
    refine ⟨rfl, rfl, fun rows hrows => ⟨hrows, rfl, ?_, ?_⟩⟩
    · rw [hreading]
      exact hp.readings
    · rw [hreading]
      exact hp.inTime

/-- Whether a run goes on after a row, if these were taken before. -/
def proceeds (r : Request) (goes : List Token → Bool) (filter : Token → Bool) (taken : List Token)
    (t : Token) : Bool :=
  !filter t || goes (taken ++ [t]) && r.wantsMore (taken ++ [t]).length

/-- The rows in range that are looked at from some row on. -/
def looked (r : Request) (goes : List Token → Bool) (filter : Token → Bool) (taken : List Token) :
    List Token → List Token
  | [] => []
  | t :: ts =>
    t :: if r.proceeds goes filter taken t then
      r.looked goes filter (taken ++ [t].filter filter) ts else []

def inRange (range : Option KeyRange) (ts : List Token) : List Token :=
  ts.filter (asks range fun _ => true)

theorem filter_inRange (range : Option KeyRange) (ts : List Token) :
    (inRange range ts).filter filter = ts.filter (asks range filter) := by
  rw [inRange, List.filter_filter]
  refine List.filter_congr fun t _ => ?_
  rw [asks, asks, Bool.and_true, Bool.and_comm]

/-- All rows of a list are looked at, or the clock ends the run on one of them. -/
def Looks (r : Request) (filter : Token → Bool) (whole : List Token) (result : Except Fault Unit)
    (p : Progress) : Prop :=
  match result with
  | .ok _ => r.Seen filter whole p
  | .error f => ∃ seen, seen <+: whole ∧ r.Overdue filter seen f p

section

variable (hpasses : r.passes = fun t => .ok (filter t))
  (hconsume : r.consume = fun rows => .ok (goes rows))
include hpasses hconsume

theorem Seen.ensures_offer (hp : r.Seen filter seen p) (h : r.Timed id p.engine)
    (hleft : range.left ≤ t) (hright : t ≤ range.right) : Ensures (r.offer id range t) p fun
      | .ok more, p' => p'.engine = p.engine ∧ r.Seen filter (seen ++ [t]) p' ∧
          more = r.proceeds goes filter (seen.filter filter) t
      | .error f, p' => r.Overdue filter (seen ++ [t]) f p' := by
  unfold offer
  rw [if_neg (Int.not_lt.2 hright)]
  refine (hp.ensures_scan h t).bind ?_ fun _ _ h => h
  rintro _ p₁ ⟨hengine, hrows, hseen⟩
  rw [List.filter_append, ← hp.rows, ← hrows] at hseen
  rw [if_neg (Int.not_lt.2 hleft), hpasses, proceeds, ← hp.rows, ← hrows]
  dsimp only
  cases hfilter : filter t with
  | false =>
    refine ⟨hengine, hseen _ ?_, rfl⟩
    rw [List.filter_singleton, hfilter, cond_false, List.append_nil]
  | true =>
    have hemitted : r.Seen filter (seen ++ [t]) { p₁ with rows := p₁.rows ++ [t] } := by
      apply hseen
      rw [List.filter_singleton, hfilter, cond_true]
    unfold emit
    rw [ensures_modify_bind, ensures_get_bind, hconsume]
    dsimp only
    cases goes (p₁.rows ++ [t]) with
    | false => exact ⟨hengine, hemitted, rfl⟩
    | true => exact ⟨hengine, hemitted, rfl⟩

/-- Draining looks at row after row until one of them ends the run. -/
theorem Seen.ensures_drain {x : CursorId} {part : Part} {fuel : Nat}
    (hp : r.Seen filter seen p) (hx : Streams p.engine.cursors (x + 1) x part)
    (h : r.Timed id p.engine) (hleft : ∀ t ∈ part.tokens, range.left ≤ t)
    (hfuel : part.tokens.length < fuel) : Ensures (r.drain id range x fuel) p
      (r.Looks filter (seen ++
        r.looked goes filter (seen.filter filter) (inRange (some range) part.tokens))) := by
  induction fuel generalizing p part seen with
  | zero => exact absurd hfuel (Nat.not_lt_zero _)
  | succ fuel ih =>
    unfold drain
    apply (ensures_pulled hx.hasNext).bind
    swap
    · rintro _ _ ⟨⟨⟨⟩, -⟩, -⟩
    rintro _ p₁ ⟨⟨⟨⟩, hx₁, -⟩, hp₁⟩
    obtain ⟨reads, tokens⟩ := part
    cases tokens with
    | nil =>
      change r.Seen filter (seen ++ []) p₁
      rw [List.append_nil, hp₁]
      exact hp.withEngine _
    | cons t ts =>
      obtain ⟨ht, hts⟩ := List.forall_mem_cons.1 hleft
      apply (ensures_pulled ((Pull.reads_advance (x + 1)).next hx₁ rfl)).bind
      swap
      · rintro _ _ ⟨⟨⟨⟩, -⟩, -⟩
      rintro _ p₂ ⟨⟨⟨⟩, hx₂, -⟩, hp₂⟩
      have hseen₂ : r.Seen filter seen p₂ := by
        rw [hp₂, hp₁]
        exact hp.withEngine _
      have htimed₂ : r.Timed id p₂.engine := h.congr (by rw [hp₂, hp₁])
      dsimp only
      by_cases hbeyond : range.right < t
      · -- No later row is in range either.
        rw [inRange, filter_beyond hx.rising hbeyond, looked, List.append_nil]
        unfold offer
        rw [if_pos hbeyond]
        exact hseen₂
      · have hright : t ≤ range.right := Int.not_lt.1 hbeyond
        have hasks : asks (some range) (fun _ => true) t = true := by
          rw [asks, Option.any_some, KeyRange.contains, decide_eq_true ht, decide_eq_true hright]
          rfl
        rw [inRange, List.filter_cons_of_pos hasks, looked, ← inRange]
        apply (hseen₂.ensures_offer hpasses hconsume htimed₂ ht hright).bind
        swap
        · exact fun f p₃ hoverdue => ⟨_, (List.prefix_append_right_inj seen).2
            ((List.prefix_cons_inj t).2 List.nil_prefix), hoverdue⟩
        rintro more p₃ ⟨hengine₃, hseen₃, rfl⟩
        by_cases hmore : r.proceeds goes filter (seen.filter filter) t = true
        · rw [if_pos hmore, if_pos hmore, ← List.filter_append, List.append_cons]
          rw [← hengine₃] at hx₂ htimed₂
          exact ih hseen₃ hx₂ htimed₂ hts (Nat.lt_of_succ_lt_succ hfuel)
        · rw [if_neg hmore, if_neg hmore]
          exact hseen₃

theorem Seen.ensures_deliver {cursor : Option CursorId} (hp : r.Seen filter [] p)
    (hx : Brings p.engine.cursors ts cursor) (h : r.Timed id p.engine) :
    Ensures (r.deliver id cursor) p
      (r.Looks filter (r.looked goes filter [] (inRange r.range ts))) := by
  have hnone : inRange r.range ts = [] →
      r.Looks filter (r.looked goes filter [] (inRange r.range ts)) (.ok ()) p := by
    intro hempty
    rw [hempty]
    exact hp
  unfold deliver
  cases cursor with
  | none =>
    obtain rfl : ts = [] := hx
    exact hnone rfl
  | some x =>
    obtain ⟨part, hx, rfl⟩ := hx
    cases hrange : r.range with
    | none =>
      rw [hrange] at hnone
      exact hnone (List.filter_eq_nil_iff.2 fun _ _ => nofun)
    | some range =>
      rw [hrange] at hnone
      dsimp only
      by_cases hempty : range.isEmpty
      · rw [if_pos hempty, ensures_pure]
        apply hnone
        apply List.filter_eq_nil_iff.2
        intro t _ hasks
        rw [asks, Option.any_some, Bool.and_eq_true] at hasks
        exact KeyRange.isEmpty_iff.1 hempty t hasks.1
      · rw [if_neg hempty]
        apply (ensures_pulled ((Pull.reads_advance (x + 1)).skipTo range.left hx)).bind
        swap
        · rintro _ _ ⟨⟨⟨⟩, -⟩, -⟩
        rintro _ p₁ ⟨⟨-, hx₁, -⟩, hp₁⟩
        rw [ensures_get_bind]
        have hseen₁ : r.Seen filter [] p₁ := by
          rw [hp₁]
          exact hp.withEngine _
        have htimed₁ : r.Timed id p₁.engine := h.congr (by rw [hp₁])
        have hleft : ∀ t ∈ (part.skip range.left).tokens, range.left ≤ t :=
          fun t ht => ((Part.mem_skip hx.rising).1 ht).2
        have hdrained := hseen₁.ensures_drain hpasses hconsume hx₁ htimed₁ hleft
          (Nat.lt_succ_of_le hx₁.length_le_pending)
        rw [inRange, Part.skip, filter_dropWhile, List.nil_append] at hdrained
        exact hdrained

theorem ensures_inSession_looks (hp : p.rows = [] ∧ p.scanned = 0 ∧ p.readings = 1)
    (hbuild : Ensures (r.query.build id) p.engine fun result e' =>
      (∃ cursor, result = .ok cursor ∧ Brings e'.cursors ts cursor) ∧ r.Timed id e') :
    Ensures (r.inSession id) p
      (r.Looks filter (r.looked goes filter [] (inRange r.range ts))) := by
  obtain ⟨hrows, hscanned, hreadings⟩ := hp
  unfold inSession
  apply (ensures_acted hbuild).bind
  swap
  · rintro f p₁ ⟨⟨⟨_, hf, -⟩, -⟩, -⟩
    cases hf
  rintro _ p₁ ⟨⟨⟨cursor, ⟨⟩, hbrings⟩, htimed⟩, hp₁⟩
  have hrows₁ : p₁.rows = [] := by rw [hp₁, hrows]
  have hscanned₁ : p₁.scanned = 0 := by rw [hp₁, hscanned]
  have hreadings₁ : p₁.readings = 1 := by rw [hp₁, hreadings]
  have hread : p₁.readings + 1 = 2 := congrArg Nat.succ hreadings₁
  apply (ensures_reading htimed).bind
  · rintro _ p₂ ⟨rfl, htime⟩
    rw [hreadings₁] at htime
    have hseen : r.Seen filter [] { p₁ with readings := p₁.readings + 1 } :=
      .start hrows₁ hscanned₁ hread htime
    exact hseen.ensures_deliver hpasses hconsume hbrings htimed
  · rintro f p₂ ⟨rfl, hlate, rfl⟩
    rw [hreadings₁] at hlate
    refine ⟨[], List.nil_prefix, ?_⟩
    rw [hreadings₁]
    exact .start hrows₁ hscanned₁ rfl hlate

end

/-- The rows up to the first on which the consumer stops, if these were taken before. -/
def heeded (goes : List Token → Bool) (taken : List Token) : List Token → List Token
  | [] => []
  | t :: ts => t :: if goes (taken ++ [t]) then heeded goes (taken ++ [t]) ts else []

/-- Of the tokens of a cursor, the rows that a run is to hand out: those in range that pass, up to
the limit, and up to the first on which the consumer stops. -/
def wanted (r : Request) (goes : List Token → Bool) (filter : Token → Bool) (ts : List Token) :
    List Token :=
  heeded goes [] (r.limited (ts.filter (asks r.range filter)))

/-- Whether the last of some rows ends a run, by the consumer or by the limit. -/
def ends (r : Request) (goes : List Token → Bool) (taken rows : List Token) : Bool :=
  !rows.isEmpty && !(goes (taken ++ rows) && r.wantsMore (taken ++ rows).length)

/-- The rows in range that a run has to look at: all of them, or those up to the one that ends
it. -/
def reached (r : Request) (goes : List Token → Bool) (filter : Token → Bool) (ts : List Token) :
    List Token :=
  (inRange r.range ts).filter fun t =>
    !r.ends goes [] (r.wanted goes filter ts) ||
      (r.wanted goes filter ts).getLast?.all fun last => t ≤ last

/-- The first of some rows, up to the limit, if so many were handed out before. -/
def upToLimit (r : Request) (count : Nat) (rows : List Token) : List Token :=
  if r.options.resultLimit = 0 then rows else rows.take (r.options.resultLimit.toNat - count)

theorem upToLimit_cons (r : Request) (count : Nat) (t : Token) (ts : List Token) :
    r.upToLimit count (t :: ts) =
      if r.wantsMore count then t :: r.upToLimit (count + 1) ts else [] := by
  unfold upToLimit wantsMore
  by_cases hlimit : r.options.resultLimit = 0
  · simp only [hlimit, if_true, decide_true, Bool.true_or]
  · simp only [hlimit, if_false, decide_false, Bool.false_or, decide_eq_true_eq]
    split
    next hless =>
      rw [show r.options.resultLimit.toNat - count = r.options.resultLimit.toNat - (count + 1) + 1
        by omega, List.take_succ_cons]
    next hfull => rw [Nat.sub_eq_zero_of_le (Nat.not_lt.1 hfull), List.take_zero]

theorem upToLimit_full (h : r.wantsMore rows.length = false) (ts : List Token) :
    r.upToLimit rows.length ts = [] := by
  cases ts with
  | nil => unfold upToLimit; split <;> simp
  | cons t ts => rw [upToLimit_cons, h, if_neg Bool.false_ne_true]

theorem looked_of_fails (h : filter t = false) :
    r.looked goes filter taken (t :: ts) = t :: r.looked goes filter taken ts := by
  rw [looked, proceeds, h, List.filter_singleton, h, cond_false, List.append_nil]
  rfl

theorem looked_of_passes (h : filter t = true) : r.looked goes filter taken (t :: ts) =
    t :: if goes (taken ++ [t]) && r.wantsMore (taken ++ [t]).length then
      r.looked goes filter (taken ++ [t]) ts else [] := by
  rw [looked, proceeds, h, List.filter_singleton, h, cond_true]
  rfl

/-- What passes of the rows looked at is what is to be handed out. -/
theorem filter_looked (h : r.wantsMore taken.length = true) :
    (r.looked goes filter taken ts).filter filter =
      heeded goes taken (r.upToLimit taken.length (ts.filter filter)) := by
  induction ts generalizing taken with
  | nil =>
    unfold upToLimit
    split
    · rfl
    · rw [List.filter_nil, List.take_nil]
      rfl
  | cons t ts ih =>
    cases hfilter : filter t with
    | false =>
      have hfails : ¬ filter t = true := by
        rw [hfilter]
        exact Bool.false_ne_true
      rw [looked_of_fails hfilter, List.filter_cons_of_neg hfails, List.filter_cons_of_neg hfails]
      exact ih h
    | true =>
      have hlength : taken.length + 1 = (taken ++ [t]).length := by
        rw [List.length_append, List.length_singleton]
      rw [looked_of_passes hfilter, List.filter_cons_of_pos hfilter,
        List.filter_cons_of_pos hfilter, upToLimit_cons, if_pos h, heeded, hlength]
      cases goes (taken ++ [t]) with
      | false => rfl
      | true =>
        cases hmore : r.wantsMore (taken ++ [t]).length with
        | false =>
          rw [upToLimit_full hmore]
          rfl
        | true => exact congrArg _ (ih hmore)

theorem filter_looked_inRange (r : Request) (goes : List Token → Bool) (filter : Token → Bool)
    (ts : List Token) :
    (r.looked goes filter [] (inRange r.range ts)).filter filter = r.wanted goes filter ts := by
  rw [filter_looked wantsMore_zero, filter_inRange]
  rfl

theorem looked_sublist (r : Request) (goes : List Token → Bool) (filter : Token → Bool)
    (taken ts : List Token) : (r.looked goes filter taken ts).Sublist ts := by
  induction ts generalizing taken with
  | nil => exact .slnil
  | cons t ts ih =>
    rw [looked]
    apply List.Sublist.cons_cons
    split
    · exact ih _
    · exact List.nil_sublist _

theorem le_last (h : Rising (t :: ts)) (hrows : rows ⊆ ts) :
    (rows.getLast?.all fun last => t ≤ last) = true := by
  rw [Option.all_eq_true]
  intro last hlast
  exact decide_eq_true (h.head_le (List.mem_cons_of_mem t (hrows (List.mem_of_getLast? hlast))))

theorem ends_nil : r.ends goes taken [] = false := rfl

theorem ends_cons (hrows : rows ≠ []) :
    r.ends goes taken (t :: rows) = r.ends goes (taken ++ [t]) rows := by
  obtain ⟨u, rest, rfl⟩ := List.exists_cons_of_ne_nil hrows
  rw [ends, ends, List.append_cons]
  rfl

theorem looked_eq (h : Rising ts) (hrows : (r.looked goes filter taken ts).filter filter = rows) :
    r.looked goes filter taken ts =
      ts.filter fun t => !r.ends goes taken rows || rows.getLast?.all fun last => t ≤ last := by
  induction ts generalizing taken rows with
  | nil => rfl
  | cons t ts ih =>
    have hsub : ∀ taken, (r.looked goes filter taken ts).filter filter ⊆ ts := fun taken =>
      (List.filter_sublist.trans (r.looked_sublist goes filter taken ts)).subset
    cases hfilter : filter t with
    | false =>
      have hfails : ¬ filter t = true := by
        rw [hfilter]
        exact Bool.false_ne_true
      rw [looked_of_fails hfilter, List.filter_cons_of_neg hfails] at hrows
      rw [looked_of_fails hfilter, List.filter_cons_of_pos, ← ih h.of_cons hrows]
      rw [le_last h (hrows ▸ hsub taken), Bool.or_true]
    | true =>
      rw [looked_of_passes hfilter] at hrows ⊢
      rw [List.filter_cons_of_pos hfilter] at hrows
      cases hgoes : goes (taken ++ [t]) && r.wantsMore (taken ++ [t]).length with
      | false =>
        rw [hgoes, if_neg Bool.false_ne_true] at hrows
        obtain rfl : [t] = rows := hrows
        have hends : r.ends goes taken [t] = true := by
          rw [ends, hgoes]
          rfl
        have hnone : (ts.filter fun u => u ≤ t) = [] := by
          apply List.filter_eq_nil_iff.2
          intro u hu hle
          have hlt : t < u := List.rel_of_pairwise_cons h hu
          rw [decide_eq_true_eq] at hle
          lia
        simp only [hends, Bool.not_true, Bool.false_or, List.getLast?_singleton, Option.all_some]
        rw [if_neg Bool.false_ne_true, List.filter_cons, if_pos (decide_eq_true (Int.le_refl t)),
          hnone]
      | true =>
        rw [hgoes, if_pos rfl] at hrows
        obtain ⟨rest, hrest⟩ : ∃ rest,
          (r.looked goes filter (taken ++ [t]) ts).filter filter = rest := ⟨_, rfl⟩
        rw [hrest] at hrows
        subst hrows
        rw [if_pos rfl, ih h.of_cons hrest]
        cases rest with
        | nil =>
          have hends : r.ends goes taken [t] = false := by
            rw [ends, hgoes]
            rfl
          simp only [hends, ends_nil, Bool.not_false, Bool.true_or, List.filter_true]
        | cons u rest =>
          have hlast : (t :: u :: rest).getLast? = (u :: rest).getLast? := rfl
          rw [ends_cons (List.cons_ne_nil u rest), hlast, List.filter_cons_of_pos]
          rw [le_last h (hrest ▸ hsub _), Bool.or_true]

theorem looked_inRange (h : Rising ts) :
    r.looked goes filter [] (inRange r.range ts) = r.reached goes filter ts :=
  looked_eq (h.filter _) (r.filter_looked_inRange goes filter ts)

/-- What passes of the rows reached is what is to be handed out. -/
theorem filter_reached (h : Rising ts) :
    (r.reached goes filter ts).filter filter = r.wanted goes filter ts := by
  rw [← looked_inRange h, filter_looked_inRange]

def begun (r : Request) (e : Engine) : Engine :=
  (Session.openAt (r.clock 0) r.range r.options.timeQuota e).2

theorem ensures_begun (r : Request) (e : Engine) :
    Ensures (Session.openAt (r.clock 0) r.range r.options.timeQuota) e fun result e' =>
      result = .ok e.sessions.size ∧ r.Timed e.sessions.size e' := by
  unfold Session.openAt
  apply (BaseTable.ensures_pin r.range e).bind
  · rintro scope _ ⟨⟨files, rfl⟩, -⟩
    have hpushed : ∀ s, ({ e with files, sessions := e.sessions.push s } : Engine).session
        e.sessions.size = s := by
      intro s
      simp [Engine.session]
    exact ⟨rfl, congrArg Session.start (hpushed _), congrArg Session.quota (hpushed _)⟩
  · rintro f _ ⟨-, _, hf, -⟩
    cases hf

theorem Timed.grows {e e' : Engine} (h : r.Timed id e) (hgrows : Loan.Grows id e e') :
    r.Timed id e' := by
  obtain ⟨groups, hsession⟩ := hgrows.session
  exact ⟨hsession ▸ h.start, hsession ▸ h.quota⟩

theorem Brings.rising {cs : Array Cursor} {cursor : Option CursorId} (h : Brings cs ts cursor) :
    Rising ts := by
  cases cursor with
  | none =>
    obtain rfl : ts = [] := h
    exact .nil
  | some x =>
    obtain ⟨part, hx, rfl⟩ := h
    exact hx.rising

theorem rising_of_build {build : Act (Option CursorId)} {e : Engine}
    (h : Ensures build e fun result e' => ∃ cursor, result = .ok cursor ∧
      Brings e'.cursors ts cursor) : Rising ts := by
  obtain ⟨cursor, -, hbrings⟩ := h
  exact hbrings.rising

def progress (r : Request) (e : Engine) : Progress := (r.inOwnSession { engine := e }).2

section

variable {e : Engine} (hpresent : ¬ r.query.isAbsent)
  (hpasses : r.passes = fun t => .ok (filter t))
  (hconsume : r.consume = fun rows => .ok (goes rows))
  (hbuild : Ensures (r.query.build e.sessions.size) (r.begun e) fun result e' =>
    ∃ cursor, result = .ok cursor ∧ Brings e'.cursors ts cursor)
include hpresent hpasses hconsume hbuild

theorem ensures_inOwnSession_looks :
    Ensures r.inOwnSession { engine := e } (r.Looks filter (r.reached goes filter ts)) := by
  have hrising := rising_of_build hbuild
  unfold inOwnSession
  rw [if_neg hpresent]
  unfold readClock
  simp only [bind_assoc, ensures_get_bind, ensures_set_bind, pure_bind]
  have hbegun : Ensures (Session.openAt (r.clock 0) r.range r.options.timeQuota) e fun result e' =>
      (result = .ok e.sessions.size ∧ r.Timed e.sessions.size e') ∧ e' = r.begun e :=
    ⟨r.ensures_begun e, rfl⟩
  apply (ensures_acted hbegun).bind
  swap
  · rintro _ _ ⟨⟨⟨⟨⟩, -⟩, -⟩, -⟩
  rintro _ p₁ ⟨⟨⟨⟨⟩, htimed⟩, hengine⟩, hp₁⟩
  have htimely := (grows_build r.query e.sessions.size p₁.engine).mono fun _ _ hgrows =>
    htimed.grows hgrows
  rw [← hengine] at hbuild
  rw [Loan.ensures_thenFinish, ← looked_inRange hrising]
  have hstart : p₁.rows = [] ∧ p₁.scanned = 0 ∧ p₁.readings = 1 := by
    rw [hp₁]
    exact ⟨rfl, rfl, rfl⟩
  apply (ensures_inSession_looks hpasses hconsume hstart (hbuild.and htimely)).mono
  rintro (f | _) p₂ hlooks
  · obtain ⟨seen, hseen, hoverdue⟩ := hlooks
    exact ⟨seen, hseen, hoverdue.withEngine _⟩
  · exact Seen.withEngine hlooks _

/-- A run hands out the rows that are wanted, unless a reading of the clock is late: the one after
the build, or one made on a row that completes an interval, where 0 stands for an interval of one
row. The first late reading ends the run with the rows handed out before it. Less than an interval
of rows is scanned after the last reading. -/
theorem run_reads :
    ((∀ n, 0 < n → n ≤ r.readingAt (r.reached goes filter ts) → ¬ r.IsLate n) →
      (r.run e).1 = ⟨r.wanted goes filter ts, none⟩ ∧
        (r.progress e).scanned = (r.reached goes filter ts).length ∧
        (r.progress e).readings = 1 + r.readingAt (r.reached goes filter ts)) ∧
    (∀ n, 0 < n → n ≤ r.readingAt (r.reached goes filter ts) → r.IsLate n →
      (∀ m, 0 < m → m < n → ¬ r.IsLate m) →
      ∃ rows, (r.run e).1 = ⟨rows, some (r.lateFault n)⟩ ∧ rows <+: r.wanted goes filter ts ∧
        rows = ((r.reached goes filter ts).take
          ((n - 1) * max 1 r.options.checkpointInterval.toNat - 1)).filter filter ∧
        (r.progress e).scanned = (n - 1) * max 1 r.options.checkpointInterval.toNat ∧
        (r.progress e).readings = n + 1) ∧
    ((r.progress e).readings - 2) * max 1 r.options.checkpointInterval.toNat ≤
      (r.progress e).scanned ∧
    (r.progress e).scanned <
      ((r.progress e).readings - 1) * max 1 r.options.checkpointInterval.toNat := by
  have hlooks := ensures_inOwnSession_looks hpresent hpasses hconsume hbuild
  have hrising := rising_of_build hbuild
  rw [← filter_reached hrising]
  unfold Ensures at hlooks
  unfold run progress
  generalize r.reached goes filter ts = whole at hlooks ⊢
  generalize r.inOwnSession { engine := e } = outcome at hlooks ⊢
  obtain ⟨result, p⟩ := outcome
  cases result with
  | ok _ =>
    have hseen : r.Seen filter whole p := hlooks
    refine ⟨fun _ => ⟨?_, hseen.scanned, hseen.readings⟩, fun n hn hle hlate => ?_, ?_⟩
    · rw [← hseen.rows]
    · exact absurd hlate (hseen.inTime n hn hle)
    · exact scanned_between hseen.scanned hseen.readings
  | error f =>
    obtain ⟨seen, hprefix, h⟩ := hlooks
    have hpos : 0 < r.readingAt seen := Nat.add_pos_left Nat.one_pos _
    have hmade : r.readingAt seen ≤ r.readingAt whole :=
      Nat.add_le_add_left (Nat.div_le_div_right hprefix.length_le) 1
    refine ⟨fun htime => absurd h.late (htime _ hpos hmade), fun n hn _ hlate hfirst => ?_,
      scanned_between h.scanned h.readings⟩
    -- There is just one reading that is the first to be late.
    have hreading : r.readingAt seen = n := by
      rcases Nat.lt_trichotomy (r.readingAt seen) n with hlt | heq | hgt
      · exact absurd h.late (hfirst _ hpos hlt)
      · exact heq
      · exact absurd hlate (h.inTime n hn hgt)
    have hlength : seen.length = (n - 1) * max 1 r.options.checkpointInterval.toNat := by
      rw [← hreading, readingAt, Nat.add_sub_cancel_left, Nat.div_mul_cancel h.whole]
    have hseen : seen.dropLast =
        whole.take ((n - 1) * max 1 r.options.checkpointInterval.toNat - 1) := by
      rw [List.dropLast_eq_take, hlength, List.prefix_iff_eq_take.1 hprefix, hlength,
        List.take_take, Nat.min_eq_left (Nat.sub_le _ _)]
    refine ⟨p.rows, ?_, ?_, ?_, ?_, ?_⟩
    · rw [h.fault, hreading]
    · rw [h.rows]
      exact ((List.dropLast_prefix seen).trans hprefix).filter filter
    · rw [h.rows, hseen]
    · rw [h.scanned, hlength]
    · rw [h.readings, hreading, Nat.add_comm]

end

def fiveRows : Engine :=
  Operation.effects ([.register "a" (some .text), .createIndex "a"] ++
    [2, 3, 4, 5, 6].map fun t => .enter t "a" [120]) {}

/-- Asks for the rows from 3 on but 4, with readings at some interval, the third of them late. -/
def untilLate (interval : UInt64) : Request where
  query := .node .or [onRow .text (.eq [120])] .absent .absent
  range := some ⟨3, 9⟩
  options := { checkpointInterval := interval }
  passes t := .ok (t ≠ 4)
  consume rows := .ok (rows.length < 7)
  clock n := if n < 3 then 0 else 5000000000

theorem fiveRows_built (interval : UInt64) :
    Ensures ((untilLate interval).query.build fiveRows.sessions.size)
      ((untilLate interval).begun fiveRows) fun result e' =>
        ∃ cursor, result = .ok cursor ∧ Brings e'.cursors [2, 3, 4, 5, 6] cursor := by
  refine ⟨some 1, rfl, ⟨[1, 0], [2, 3, 4, 5, 6]⟩, ?_, rfl⟩
  have hmemtable : Opened 0 (#[].push (Cursor.ofTokens [2, 3, 4, 5, 6] none none)) 0
      ⟨[0], [2, 3, 4, 5, 6]⟩ := .ofTokens (Nat.zero_le _) (by decide) none none
  exact (hmemtable.matches (Nat.zero_le _) []).streams

theorem untilLate_isLate (interval : UInt64) : (untilLate interval).IsLate 3 ∧
    ∀ m, 0 < m → m < 3 → ¬ (untilLate interval).IsLate m := by
  have hlate : Duration.ofMilliseconds ({} : Options).timeQuota ≤ 5000000000 - 0 := by decide
  have hearly : ¬ Duration.ofMilliseconds ({} : Options).timeQuota ≤ 0 - 0 := by decide
  refine ⟨hlate, fun m _ hm => ?_⟩
  have hzero : (untilLate interval).clock m = 0 := if_pos hm
  rw [IsLate, hzero]
  exact hearly

/-- The third reading is made on the fourth row in range at an interval of two rows, and on the
second at an interval of one, which is what 0 stands for. -/
theorem untilLate_reads :
    (¬ (untilLate 2).query.isAbsent ∧ (untilLate 2).IsLate 3 ∧
      (untilLate 2).reached (fun rows => rows.length < 7) (· ≠ 4) [2, 3, 4, 5, 6] = [3, 4, 5, 6] ∧
      ((untilLate 2).run fiveRows).1 = ⟨[3, 5], some ((untilLate 2).lateFault 3)⟩ ∧
      ((untilLate 2).progress fiveRows).scanned = 4 ∧
      ((untilLate 2).progress fiveRows).readings = 4) ∧
    ((untilLate 0).run fiveRows).1 = ⟨[3], some ((untilLate 0).lateFault 3)⟩ ∧
      ((untilLate 0).progress fiveRows).scanned = 2 ∧
      ((untilLate 0).progress fiveRows).readings = 4 := by
  have hpresent : ∀ interval, ¬ (untilLate interval).query.isAbsent := fun _ => nofun
  have hreached : ∀ interval, (untilLate interval).reached (fun rows => rows.length < 7) (· ≠ 4)
      [2, 3, 4, 5, 6] = [3, 4, 5, 6] := fun _ => rfl
  constructor
  · obtain ⟨hlate, hfirst⟩ := untilLate_isLate 2
    obtain ⟨rows, hrun, -, hrows, hscanned, hreadings⟩ :=
      (run_reads (hpresent 2) rfl rfl (fiveRows_built 2)).2.1 3 (by decide)
        (by rw [hreached]; decide) hlate hfirst
    rw [hreached] at hrows
    obtain rfl : rows = [3, 5] := hrows
    exact ⟨hpresent 2, hlate, hreached 2, hrun, hscanned, hreadings⟩
  · obtain ⟨hlate, hfirst⟩ := untilLate_isLate 0
    obtain ⟨rows, hrun, -, hrows, hscanned, hreadings⟩ :=
      (run_reads (hpresent 0) rfl rfl (fiveRows_built 0)).2.1 3 (by decide)
        (by rw [hreached]; decide) hlate hfirst
    rw [hreached] at hrows
    obtain rfl : rows = [3] := hrows
    exact ⟨hrun, hscanned, hreadings⟩

end SecondaryIndex.Query.Request
