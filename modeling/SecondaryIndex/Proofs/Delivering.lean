import Mathlib.Data.List.TakeWhile
import SecondaryIndex.Proofs.Loan.Running
import SecondaryIndex.Proofs.Stream.Advance

namespace SecondaryIndex.Query.Request

variable {r : Request} {id : SessionId} {p : Progress} {filter : Token → Bool}

/-- One of the readings of the clock that were made after the first found the quota used up. -/
def Late (r : Request) (p : Progress) : Prop :=
  ∃ n, 0 < n ∧ n < p.readings ∧ Duration.ofMilliseconds r.options.timeQuota ≤ r.clock n - r.clock 0

def InTime (r : Request) (e : Engine) : Prop :=
  ∀ n, 0 < n → n < (r.inOwnSession { engine := e }).2.readings →
    r.clock n - r.clock 0 < Duration.ofMilliseconds r.options.timeQuota

/-- A session that was opened at the first reading. -/
structure Timed (r : Request) (id : SessionId) (e : Engine) : Prop where
  start : (e.session id).start = r.clock 0
  quota : (e.session id).quota = .ofMilliseconds r.options.timeQuota

theorem Timed.congr {e e' : Engine} (h : r.Timed id e) (hs : e'.sessions = e.sessions) :
    r.Timed id e' := ⟨Loan.session_congr hs ▸ h.start, Loan.session_congr hs ▸ h.quota⟩

theorem ensures_checkpoint (h : r.Timed id p.engine) (hbegun : 0 < p.readings) :
    Ensures (r.checkpoint id) p fun
      | .ok _, p' => p' = { p with readings := p.readings + 1 }
      | .error _, p' => r.Late p' := by
  unfold checkpoint readClock
  simp only [bind_assoc, ensures_get_bind, ensures_set_bind, pure_bind]
  rw [Loan.ensures_act, Session.checkpoint, Loan.ensures_sessionState_bind]
  dsimp only
  rw [h.quota, Session.elapsed, h.start]
  split
  next hlate => exact ⟨p.readings, hbegun, Nat.lt_succ_self _, hlate⟩
  next => rfl

theorem ensures_scan (h : r.Timed id p.engine) (hbegun : 0 < p.readings) :
    Ensures (r.scan id) p fun
      | .ok _, p' => p'.engine = p.engine ∧ p'.rows = p.rows ∧ 0 < p'.readings
      | .error _, p' => r.Late p' := by
  unfold scan
  rw [ensures_modify_bind, ensures_get_bind]
  split
  · refine Ensures.mono (ensures_checkpoint (p := { p with scanned := p.scanned + 1 }) h hbegun) ?_
    intro result p' hp'
    cases result with
    | error f => exact hp'
    | ok _ =>
      rw [hp']
      exact ⟨rfl, rfl, Nat.succ_pos _⟩
  · exact ⟨rfl, rfl, hbegun⟩

def asks (range : Option KeyRange) (filter : Token → Bool) (t : Token) : Bool :=
  range.any (·.contains t) && filter t

theorem filter_beyond {range : KeyRange} {t : Token} {ts : List Token} (h : Rising (t :: ts))
    (hbeyond : range.right < t) : (t :: ts).filter (asks (some range) filter) = [] := by
  apply List.filter_eq_nil_iff.2
  intro u hu hasks
  have hle := h.head_le hu
  simp only [asks, Option.any_some, KeyRange.contains, Bool.and_eq_true, decide_eq_true_eq] at hasks
  lia

theorem filter_dropWhile (range : KeyRange) (ts : List Token) :
    (ts.dropWhile (· < range.left)).filter (asks (some range) filter) =
      ts.filter (asks (some range) filter) := by
  conv_rhs =>
    rw [← List.takeWhile_append_dropWhile (p := (· < range.left)) (l := ts), List.filter_append]
  have hnone : (ts.takeWhile (· < range.left)).filter (asks (some range) filter) = [] := by
    apply List.filter_eq_nil_iff.2
    intro u hu hasks
    have hbelow := List.mem_takeWhile_imp hu
    simp only [asks, Option.any_some, KeyRange.contains, Bool.and_eq_true, decide_eq_true_eq]
      at hasks hbelow
    lia
  rw [hnone, List.nil_append]

def limited (r : Request) (rows : List Token) : List Token :=
  if r.options.resultLimit = 0 then rows else rows.take r.options.resultLimit.toNat

theorem limited_eq_self {rows : List Token} (h : r.wantsMore rows.length = true) :
    r.limited rows = rows := by
  unfold limited
  split
  · rfl
  next hlimit =>
    have hless : rows.length < r.options.resultLimit.toNat := by
      simpa [wantsMore, hlimit] using h
    exact List.take_of_length_le (Nat.le_of_lt hless)

theorem wantsMore_zero : r.wantsMore 0 = true := by
  unfold wantsMore
  by_cases hlimit : r.options.resultLimit = 0
  · rw [decide_eq_true hlimit, Bool.true_or]
  · have hpos : 0 < r.options.resultLimit.toNat :=
      Nat.pos_of_ne_zero fun hzero => hlimit (UInt64.toNat.inj hzero)
    rw [decide_eq_true hpos, Bool.or_true]

theorem limited_append {rows : List Token} {t : Token} (h : r.wantsMore rows.length = true)
    (hfull : r.wantsMore (rows ++ [t]).length = false) (more : List Token) :
    r.limited (rows ++ [t] ++ more) = rows ++ [t] := by
  have hlimit : r.options.resultLimit ≠ 0 := by
    intro hzero
    simp [wantsMore, hzero] at hfull
  have hlength : (rows ++ [t]).length = r.options.resultLimit.toNat := by
    simp only [wantsMore, hlimit, decide_false, Bool.false_or, decide_eq_true_eq,
      decide_eq_false_iff_not, List.length_append, List.length_singleton] at h hfull ⊢
    omega
  rw [limited, if_neg hlimit, ← hlength, List.take_left]

theorem limited_of_stop {range : KeyRange} {rows rows' : List Token} {t : Token} {ts : List Token}
    (h : Rising (t :: ts)) (hmore : r.wantsMore rows.length = true)
    (hrows : rows' = rows ++ [t].filter (asks (some range) filter))
    (hstop : range.right < t ∨ rows' = rows ++ [t] ∧ r.wantsMore rows'.length = false) :
    rows' = r.limited (rows' ++ ts.filter (asks (some range) filter)) := by
  rcases hstop with hbeyond | ⟨hlast, hfull⟩
  · have hnone : (t :: ts).filter (asks (some range) filter) = [] := filter_beyond h hbeyond
    rw [← List.singleton_append, List.filter_append, List.append_eq_nil_iff] at hnone
    rw [hnone.1, List.append_nil] at hrows
    rw [hrows, hnone.2, List.append_nil, limited_eq_self hmore]
  · rw [hlast] at hfull ⊢
    exact (limited_append hmore hfull _).symm

theorem ensures_acted {α : Type} {step : Act α} {R : Except Fault α → Engine → Prop}
    (h : Ensures step p.engine R) : Ensures (act step) p fun result p' =>
      R result p'.engine ∧ p' = { p with engine := p'.engine } := ⟨h, rfl⟩

theorem ensures_pulled {α : Type} {step : Pull.Step α} {R : Except Fault α → Array Cursor → Prop}
    (h : Ensures step p.engine.cursors R) : Ensures (act (Act.pull step)) p fun result p' =>
      R result p'.engine.cursors ∧
        p' = { p with engine := { p.engine with cursors := p'.engine.cursors } } :=
  ⟨h, rfl⟩

section

variable (hconsume : ∀ rows, r.consume rows = .ok true)
include hconsume

theorem ensures_emit (t : Token) : Ensures (r.emit t) p fun result p' =>
    p' = { p with rows := p.rows ++ [t] } ∧ result = .ok (r.wantsMore (p.rows ++ [t]).length) := by
  unfold emit
  rw [ensures_modify_bind, ensures_get_bind]
  dsimp only
  rw [hconsume]
  exact ⟨rfl, rfl⟩

variable (hpasses : r.passes = fun t => .ok (filter t))
include hpasses

/-- A row is handed out if it is asked for. The run goes on unless the row lies beyond the range or
is the last that is wanted. -/
theorem ensures_offer (range : KeyRange) (h : r.Timed id p.engine) (hbegun : 0 < p.readings)
    (t : Token) : Ensures (r.offer id range t) p fun
      | .ok more, p' => p'.engine = p.engine ∧ 0 < p'.readings ∧
          p'.rows = p.rows ++ [t].filter (asks (some range) filter) ∧
          (more = true → r.wantsMore p.rows.length = true → r.wantsMore p'.rows.length = true) ∧
          (more = false → range.right < t ∨
            p'.rows = p.rows ++ [t] ∧ r.wantsMore p'.rows.length = false)
      | .error _, p' => r.Late p' := by
  have hasks : [t].filter (asks (some range) filter) =
      if range.contains t && filter t then [t] else [] := by
    rw [List.filter_singleton, Bool.cond_eq_ite]
    rfl
  rw [hasks, KeyRange.contains]
  unfold offer
  by_cases hbeyond : range.right < t
  · rw [if_pos hbeyond, ensures_pure]
    have hnot : ¬ t ≤ range.right := Int.not_le.2 hbeyond
    simp [hnot, hbegun, hbeyond]
  · rw [if_neg hbeyond]
    have hright : t ≤ range.right := Int.not_lt.1 hbeyond
    refine (ensures_scan h hbegun).bind ?_ fun _ _ h => h
    rintro _ p₁ ⟨hengine, hrows, hbegun₁⟩
    by_cases hleft : t < range.left
    · have hnot : ¬ range.left ≤ t := Int.not_le.2 hleft
      rw [if_pos hleft, ensures_pure]
      simp [hengine, hrows, hbegun₁, hnot]
    · have hleft' : range.left ≤ t := Int.not_lt.1 hleft
      rw [if_neg hleft, hpasses]
      dsimp only
      cases hfilter : filter t with
      | false => simp [hengine, hrows, hbegun₁]
      | true =>
        apply (ensures_emit hconsume t).mono
        rintro _ _ ⟨rfl, rfl⟩
        simp only [hengine, hrows, hleft', hright, decide_true, Bool.and_self, if_true, hbegun₁,
          true_and]
        exact ⟨fun hmore _ => hmore, .inr⟩

theorem ensures_drain (range : KeyRange) {x : CursorId} {part : Part} {fuel : Nat}
    (hx : Streams p.engine.cursors (x + 1) x part) (h : r.Timed id p.engine)
    (hbegun : 0 < p.readings) (hmore : r.wantsMore p.rows.length = true)
    (hfuel : part.tokens.length < fuel) : Ensures (r.drain id range x fuel) p fun
      | .ok _, p' => p'.rows =
          r.limited (p.rows ++ part.tokens.filter (asks (some range) filter))
      | .error _, p' => r.Late p' := by
  -- Each turn takes one token off the stream, and one turn more is left to see its end.
  induction fuel generalizing p part with
  | zero => exact absurd hfuel (Nat.not_lt_zero _)
  | succ fuel ih =>
    unfold drain
    apply (ensures_pulled hx.hasNext).bind
    swap
    · rintro _ _ ⟨⟨⟨⟩, -⟩, -⟩
    rintro _ p₁ ⟨⟨⟨⟩, hx₁, -⟩, hp₁⟩
    obtain ⟨reads, tokens⟩ := part
    cases tokens with
    | nil =>
      change p₁.rows = r.limited (p.rows ++ [])
      rw [List.append_nil, limited_eq_self hmore, hp₁]
    | cons t ts =>
      have hfilter : (t :: ts).filter (asks (some range) filter) =
          [t].filter (asks (some range) filter) ++ ts.filter (asks (some range) filter) :=
        List.filter_append [t] ts
      apply (ensures_pulled ((Pull.reads_advance (x + 1)).next hx₁ rfl)).bind
      swap
      · rintro _ _ ⟨⟨⟨⟩, -⟩, -⟩
      rintro _ p₂ ⟨⟨⟨⟩, hx₂, -⟩, hp₂⟩
      have hrows₂ : p₂.rows = p.rows := by rw [hp₂, hp₁]
      have htimed₂ : r.Timed id p₂.engine := h.congr (by rw [hp₂, hp₁])
      have hbegun₂ : 0 < p₂.readings := by
        rw [hp₂, hp₁]
        exact hbegun
      apply (ensures_offer hconsume hpasses range htimed₂ hbegun₂ t).bind
      swap
      · exact fun _ _ hlate => hlate
      rintro more p₃ ⟨hengine₃, hbegun₃, hrows₃, hgoes, hstops⟩
      rw [hrows₂] at hrows₃ hgoes hstops
      dsimp only
      rw [hfilter, ← List.append_assoc, ← hrows₃]
      -- The run goes on with the rest, or stops where the rest adds nothing any more.
      cases more with
      | true =>
        rw [← hengine₃] at hx₂ htimed₂
        exact ih hx₂ htimed₂ hbegun₃ (hgoes rfl hmore) (Nat.lt_of_succ_lt_succ hfuel)
      | false =>
        exact limited_of_stop hx.rising hmore hrows₃ (hstops rfl)

def Brings (cs : Array Cursor) (ts : List Token) : Option CursorId → Prop
  | none => ts = []
  | some x => ∃ part, Streams cs (x + 1) x part ∧ part.tokens = ts

theorem ensures_deliver {cursor : Option CursorId} {ts : List Token}
    (hx : Brings p.engine.cursors ts cursor) (h : r.Timed id p.engine) (hbegun : 0 < p.readings)
    (hrows : p.rows = []) : Ensures (r.deliver id cursor) p fun
      | .ok _, p' => p'.rows = r.limited (ts.filter (asks r.range filter))
      | .error _, p' => r.Late p' := by
  have hnil : r.limited [] = [] := limited_eq_self wantsMore_zero
  -- Nothing is done if nothing is asked for.
  have hnone : ts.filter (asks r.range filter) = [] →
      p.rows = r.limited (ts.filter (asks r.range filter)) := by
    intro hasked
    rw [hasked, hnil, hrows]
  unfold deliver
  cases cursor with
  | none =>
    obtain rfl : ts = [] := hx
    exact hnone rfl
  | some x =>
    obtain ⟨part, hx, rfl⟩ := hx
    cases hrange : r.range with
    | none =>
      rw [hrange] at hnone
      exact hnone (List.filter_eq_nil_iff.2 fun _ _ => nofun)
    | some range =>
      rw [hrange] at hnone
      dsimp only
      by_cases hempty : range.isEmpty
      · rw [if_pos hempty, ensures_pure]
        apply hnone
        apply List.filter_eq_nil_iff.2
        intro t _ hasks
        rw [asks, Option.any_some, Bool.and_eq_true] at hasks
        exact KeyRange.isEmpty_iff.1 hempty t hasks.1
      · rw [if_neg hempty]
        apply (ensures_pulled ((Pull.reads_advance (x + 1)).skipTo range.left hx)).bind
        swap
        · rintro _ _ ⟨⟨⟨⟩, -⟩, -⟩
        rintro _ p₁ ⟨⟨-, hx₁, -⟩, hp₁⟩
        rw [ensures_get_bind]
        have hrows₁ : p₁.rows = [] := by rw [hp₁, hrows]
        have htimed₁ : r.Timed id p₁.engine := h.congr (by rw [hp₁])
        have hbegun₁ : 0 < p₁.readings := by
          rw [hp₁]
          exact hbegun
        have hmore : r.wantsMore p₁.rows.length = true := by
          rw [hrows₁]
          exact wantsMore_zero
        have hdrained := ensures_drain hconsume hpasses range hx₁ htimed₁ hbegun₁ hmore
          (Nat.lt_succ_of_le hx₁.length_le_pending)
        rw [hrows₁, List.nil_append] at hdrained
        rw [← filter_dropWhile]
        exact hdrained

theorem ensures_inSession {P : List Token → Prop} (hrows : p.rows = []) (hbegun : 0 < p.readings)
    (hbuild : Ensures (r.query.build id) p.engine fun result e' => ∃ cursor ts,
      result = .ok cursor ∧ Brings e'.cursors ts cursor ∧ P ts ∧ r.Timed id e') :
    Ensures (r.inSession id) p fun
      | .ok _, p' => ∃ ts, P ts ∧ p'.rows = r.limited (ts.filter (asks r.range filter))
      | .error _, p' => r.Late p' := by
  unfold inSession
  apply (ensures_acted hbuild).bind
  swap
  · rintro f p₁ ⟨⟨_, _, hf, -⟩, -⟩
    cases hf
  rintro _ p₁ ⟨⟨cursor, ts, ⟨⟩, hbrings, hts, htimed⟩, hp₁⟩
  have hbegun₁ : 0 < p₁.readings := by
    rw [hp₁]
    exact hbegun
  apply (ensures_checkpoint htimed hbegun₁).bind
  swap
  · exact fun _ _ hlate => hlate
  rintro _ p₂ hp₂
  dsimp only at hp₂
  have hrows₂ : p₂.rows = [] := by rw [hp₂, hp₁, hrows]
  have hengine₂ : p₂.engine = p₁.engine := by rw [hp₂]
  have hbegun₂ : 0 < p₂.readings := by
    rw [hp₂]
    exact Nat.succ_pos _
  rw [← hengine₂] at hbrings htimed
  apply (ensures_deliver hconsume hpasses hbrings htimed hbegun₂ hrows₂).mono
  intro result p₃ hp₃
  cases result with
  | error f => exact hp₃
  | ok _ => exact ⟨ts, hts, hp₃⟩

/-- The session of a run, if no live file is without references. -/
def session (r : Request) (e : Engine) : Session where
  start := r.clock 0
  quota := .ofMilliseconds r.options.timeQuota
  scope := BaseTable.touched e.live r.range

def opened (r : Request) (e : Engine) (files : Array FileState) : Engine :=
  { e with files, sessions := e.sessions.push (r.session e) }

omit hconsume hpasses in
theorem ensures_openAt {e : Engine} (hlive : ∀ f ∈ e.live, (e.file f).refs ≠ 0) :
    Ensures (Session.openAt (r.clock 0) r.range r.options.timeQuota) e fun result e' =>
      result = .ok e.sessions.size ∧ ∃ files, e' = r.opened e files := by
  unfold Session.openAt
  apply (BaseTable.ensures_pin r.range e).bind
  · rintro scope _ ⟨⟨files, rfl⟩, _, ⟨⟩, -, -, hscope⟩
    rw [hscope hlive]
    exact ⟨rfl, files, rfl⟩
  · rintro f _ ⟨-, _, hf, -⟩
    cases hf

omit hconsume hpasses in
theorem session_opened (r : Request) (e : Engine) (files : Array FileState) :
    (r.opened e files).session e.sessions.size = r.session e := by
  rw [Engine.session, opened, Array.getD_eq_getD_getElem?, Array.getElem?_push_size,
    Option.getD_some]

/-- A run in time hands out, of the rows that its cursor brings, the first that are asked for. -/
theorem run_rows {e : Engine} {P : List Token → Prop} (hlive : ∀ f ∈ e.live, (e.file f).refs ≠ 0)
    (hpresent : ¬ r.query.isAbsent)
    (hbuild : ∀ files, Ensures (r.query.build e.sessions.size) (r.opened e files) fun result e' =>
      ∃ cursor ts, result = .ok cursor ∧ Brings e'.cursors ts cursor ∧ P ts ∧
        r.Timed e.sessions.size e')
    (htime : r.InTime e) :
    ∃ ts, P ts ∧ (r.run e).1 = ⟨r.limited (ts.filter (asks r.range filter)), none⟩ := by
  have hdone : Ensures r.inOwnSession { engine := e } fun
      | .ok _, p' => ∃ ts, P ts ∧ p'.rows = r.limited (ts.filter (asks r.range filter))
      | .error _, p' => r.Late p' := by
    unfold inOwnSession
    rw [if_neg hpresent]
    unfold readClock
    simp only [bind_assoc, ensures_get_bind, ensures_set_bind, pure_bind]
    apply (ensures_acted (ensures_openAt hlive)).bind
    swap
    · rintro _ _ ⟨⟨⟨⟩, -⟩, -⟩
    rintro _ p₁ ⟨⟨⟨⟩, files, hengine⟩, hp₁⟩
    have hrows₁ : p₁.rows = [] := by rw [hp₁]
    have hbegun₁ : 0 < p₁.readings := by
      rw [hp₁]
      exact Nat.one_pos
    have hbuild₁ := hbuild files
    rw [← hengine] at hbuild₁
    rw [Loan.ensures_thenFinish]
    apply (ensures_inSession hconsume hpasses hrows₁ hbegun₁ hbuild₁).mono
    intro result p₂ hp₂
    cases result with
    | error f => exact hp₂
    | ok _ => exact hp₂
  -- The only way to fail is to be late, and the run was not.
  unfold InTime at htime
  unfold Ensures at hdone
  unfold run
  generalize r.inOwnSession { engine := e } = outcome at hdone htime
  obtain ⟨result, p'⟩ := outcome
  cases result with
  | error f =>
    obtain ⟨n, hn, hmade, hlate⟩ := hdone
    exact absurd hlate (Int64.not_le.2 (htime n hn hmade))
  | ok _ =>
    obtain ⟨ts, hts, hrows⟩ := hdone
    refine ⟨ts, hts, ?_⟩
    rw [← hrows]

end

end SecondaryIndex.Query.Request
