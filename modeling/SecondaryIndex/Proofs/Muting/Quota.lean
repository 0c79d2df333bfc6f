import SecondaryIndex.Proofs.Delivering.Readings
import SecondaryIndex.Proofs.Muting.Steps

namespace SecondaryIndex

namespace Duration

/-- A number of milliseconds that is a number of nanoseconds, too. -/
def Fits (n : Int64) : Prop := -9223372036854 ≤ n.toInt ∧ n.toInt ≤ 9223372036854

variable {m n : Int64}

theorem toInt_ofMilliseconds (h : Fits n) : (ofMilliseconds n).toInt = n.toInt * 1000000 := by
  obtain ⟨hlow, hhigh⟩ := h
  have hper : perMillisecond.toInt = 1000000 := rfl
  rw [ofMilliseconds, Int64.toInt_mul, hper]
  apply Int.bmod_eq_of_le <;> omega

theorem ofMilliseconds_le (hm : Fits m) (hn : Fits n) (h : m ≤ n) :
    ofMilliseconds m ≤ ofMilliseconds n := by
  rw [Int64.le_iff_toInt_le] at h ⊢
  rw [toInt_ofMilliseconds hm, toInt_ofMilliseconds hn]
  omega

theorem toInt_sub_of_lt {now start : Duration} (hlow : -2 ^ 63 ≤ now.toInt - start.toInt)
    (hhigh : now.toInt - start.toInt < 2 ^ 63) : (now - start).toInt = now.toInt - start.toInt := by
  rw [Int64.toInt_sub]
  apply Int.bmod_eq_of_le <;> omega

theorem ofMilliseconds_le_sub {now start : Duration} (h : Fits n)
    (hlow : -2 ^ 63 ≤ now.toInt - start.toInt) (hhigh : now.toInt - start.toInt < 2 ^ 63) :
    ofMilliseconds n ≤ now - start ↔ n.toInt * 1000000 ≤ now.toInt - start.toInt := by
  rw [Int64.le_iff_toInt_le, toInt_ofMilliseconds h, toInt_sub_of_lt hlow hhigh]

/-- The first number of milliseconds that does not fit stands for a time before the start. -/
example : ofMilliseconds 9223372036854 = 9223372036854000000 ∧
    ofMilliseconds 9223372036855 = -9223372036854551616 := by
  decide

end Duration

def Engine.granting (id : SessionId) (quota : Duration) : Muting Engine where
  mute e := e.updateSession id fun s => { s with quota }
  Holds e := (e.session id).quota ≤ quota

section

variable {α β : Type} {id : SessionId} {quota : Duration} {Y : Fault → Engine → Prop} {e : Engine}

theorem session_granting (id : SessionId) (quota : Duration) (e : Engine) :
    ((Engine.granting id quota).mute e).session id = { e.session id with quota } ∨
      ((Engine.granting id quota).mute e).session id = e.session id := by
  have hmute : (Engine.granting id quota).mute e = e.updateSession id fun s => { s with quota } :=
    rfl
  rw [hmute, Loan.session_updateSession]
  split
  · exact .inl rfl
  · exact .inr rfl

theorem Framed.alike_granting {act : Act α} (h : Framed act) (Y : Fault → Engine → Prop)
    (e : Engine) : (Engine.granting id quota).Alike Y act act e := by
  intro he
  have hsessions : (act e).2.sessions = e.sessions := (h.frame e).sessions
  refine .inr ⟨?_, ?_⟩
  · change ((act e).2.session id).quota ≤ quota
    rw [Loan.session_congr hsessions]
    exact he
  · have hblind := h.blind e (e.sessions.modify id fun s => { s with quota })
    have hmute : (Engine.granting id quota).mute (act e).2 =
        { (act e).2 with sessions := e.sessions.modify id fun s => { s with quota } } := by
      rw [← hsessions]
      rfl
    rw [hmute]
    change Ensures act { e with sessions := e.sessions.modify id fun s => { s with quota } } _
    rw [Ensures, hblind]
    exact ⟨rfl, rfl⟩

namespace Session

theorem alike_granting_state {next : Session → Act α} (hblind : ∀ s, next { s with quota } = next s)
    (h : (Engine.granting id quota).Alike Y (next (e.session id)) (next (e.session id)) e) :
    (Engine.granting id quota).Alike Y (state id >>= next) (state id >>= next) e := by
  have hsame : next (((Engine.granting id quota).mute e).session id) = next (e.session id) := by
    rcases session_granting id quota e with hs | hs
    · rw [hs, hblind]
    · rw [hs]
  intro he
  simp only [Loan.ensures_sessionState_bind, hsame]
  exact h he

theorem alike_granting_update {change : Session → Session}
    (hquota : ∀ s, (change s).quota = s.quota)
    (hblind : ∀ s, change { s with quota } = { change s with quota }) (e : Engine) :
    (Engine.granting id quota).Alike Y (update id change) (update id change) e := by
  refine .modify (fun he => ?_) ?_
  · change ((e.updateSession id change).session id).quota ≤ quota
    rw [Loan.session_updateSession]
    split
    · rw [hquota]
      exact he
    · exact he
  · have hmodify : (e.sessions.modify id fun s => { s with quota }).modify id change =
        (e.sessions.modify id change).modify id fun s => { s with quota } := by
      apply Array.ext_getElem?
      intro i
      rw [Array.getElem?_modify, Array.getElem?_modify, Array.getElem?_modify,
        Array.getElem?_modify]
      split
      · rw [Option.map_map, Option.map_map]
        exact congrArg (Option.map · _) (funext hblind)
      · rfl
    exact congrArg (fun sessions => { e with sessions }) hmodify

theorem alike_granting_candidates (k : Connective) (group : Group) (e : Engine) :
    (Engine.granting id quota).Alike Y (candidates id k group) (candidates id k group) e := by
  refine alike_granting_state (fun _ => rfl) (.get_bind ?_)
  have hindexes : ((Engine.granting id quota).mute e).indexes = e.indexes := rfl
  rw [Candidate.ofGroup_indexes hindexes]
  exact (Framed.settle _).alike_granting Y e

theorem alike_granting_plan (k : Connective) (group : Group) (e : Engine) :
    (Engine.granting id quota).Alike Y (plan id k group) (plan id k group) e := by
  have hopen : ∀ e, (Engine.granting id quota).Alike Y (do
      let opened ← openAll (← candidates id k group)
      let merge ← ({ connective := k } : Merge).addAll (opened.map some)
      update id fun s => { s with groups := s.groups.insert group opened }
      return merge) (do
      let opened ← openAll (← candidates id k group)
      let merge ← ({ connective := k } : Merge).addAll (opened.map some)
      update id fun s => { s with groups := s.groups.insert group opened }
      return merge) e := by
    intro e
    refine (alike_granting_candidates k group e).bind fun cands e₁ => ?_
    refine ((framed_openAll cands).alike_granting Y e₁).bind fun opened e₂ => ?_
    refine ((Merge.framed_addAll _ _).alike_granting Y e₂).bind fun merge e₃ => ?_
    refine .bind (alike_granting_update ?_ ?_ e₃) fun _ _ => .pure _
    · exact fun _ => rfl
    · exact fun _ => rfl
  rw [plan]
  refine alike_granting_state (fun _ => rfl) ?_
  refine .ite (.bind (.throw _) fun _ e₁ => ?_) ?_
  · exact .ite (.bind (.throw _) fun _ => hopen) (hopen e₁)
  · exact .ite (.bind (.throw _) fun _ => hopen) (hopen e)

theorem alike_granting_checkpoint (hY : ∀ elapsed spent e, Y (.outOfTime elapsed spent) e)
    (now : Duration) (e : Engine) :
    (Engine.granting id quota).Alike Y (checkpoint id now) (checkpoint id now) e := by
  intro he
  change (e.session id).quota ≤ quota at he
  simp only [checkpoint, Loan.ensures_sessionState_bind]
  split
  · exact .inl ⟨_, hY _ _ _, rfl⟩
  next htime =>
    refine .inr ⟨he, ?_⟩
    have htime' : ¬ (((Engine.granting id quota).mute e).session id).quota ≤
        elapsed (((Engine.granting id quota).mute e).session id) now := by
      rcases session_granting id quota e with hs | hs
      · rw [hs]
        exact fun hle => htime (Int64.le_trans he hle)
      · rw [hs]
        exact htime
    rw [if_neg htime']
    exact ⟨rfl, rfl⟩

end Session

/-- A session whose quota fits is out of time just when that many milliseconds have passed. -/
theorem Session.checkpoint_eq {now : Duration} {given : Int64}
    (hquota : (e.session id).quota = .ofMilliseconds given) (hgiven : Duration.Fits given)
    (hlow : -2 ^ 63 ≤ now.toInt - (e.session id).start.toInt)
    (hhigh : now.toInt - (e.session id).start.toInt < 2 ^ 63) : checkpoint id now e =
      (if given.toInt * 1000000 ≤ now.toInt - (e.session id).start.toInt then
        .error (.outOfTime (now - (e.session id).start) (.ofMilliseconds given))
      else .ok (), e) := by
  have hlate := Duration.ofMilliseconds_le_sub hgiven hlow hhigh
  apply Ensures.eq
  rw [checkpoint, Loan.ensures_sessionState_bind, hquota, elapsed]
  split
  next h =>
    rw [if_pos (hlate.1 h)]
    exact ⟨rfl, rfl⟩
  next h =>
    rw [if_neg (mt hlate.2 h)]
    exact ⟨rfl, rfl⟩

namespace Query

theorem alike_granting_start (k : Connective) (group : Group) (e : Engine) :
    (Engine.granting id quota).Alike Y (start id k group) (start id k group) e := by
  rw [start]
  exact .ite (.pure _) ((Session.alike_granting_plan k group e).bind fun _ _ => .pure _)

theorem alike_granting_join (m : Merge) (part : Query) {build : Act (Option CursorId)}
    (h : ∀ e, (Engine.granting id quota).Alike Y build build e) (e : Engine) :
    (Engine.granting id quota).Alike Y (join m part build) (join m part build) e := by
  rw [join]
  refine .ite (.pure _) ((h e).bind fun found e₁ => ?_)
  cases found with
  | none => exact .pure _
  | some x => exact (Merge.framed_add m _).map.alike_granting Y e₁

theorem alike_granting_build (q : Query) (e : Engine) :
    (Engine.granting id quota).Alike Y (q.build id) (q.build id) e := by
  induction q generalizing e with
  | absent => exact .pure _
  | node k group left right ihl ihr =>
    rw [build]
    refine (alike_granting_start k group e).bind fun m e₁ => ?_
    cases m with
    | none => exact .pure _
    | some m =>
      refine (alike_granting_join m left ihl e₁).bind fun m e₂ => ?_
      cases m with
      | none => exact .pure _
      | some m =>
        refine (alike_granting_join m right ihr e₂).bind fun m e₃ => ?_
        cases m with
        | none => exact .pure _
        | some m => exact (Merge.framed_build m).alike_granting Y e₃

end Query

end

namespace Query.Request

variable {r : Request} {e e₁ : Engine} {id : SessionId} {quota : Int64}

def withQuota (r : Request) (quota : Int64) : Request :=
  { r with options := { r.options with timeQuota := quota } }

theorem drain_withQuota (r : Request) (quota : Int64) (id : SessionId) (range : KeyRange)
    (cursor : CursorId) (fuel : Nat) :
    (r.withQuota quota).drain id range cursor fuel = r.drain id range cursor fuel := by
  induction fuel with
  | zero => rfl
  | succ fuel ih =>
    rw [drain, drain, ih]
    rfl

theorem inSession_withQuota (r : Request) (quota : Int64) (id : SessionId) :
    (r.withQuota quota).inSession id = r.inSession id := by
  have hdeliver : (r.withQuota quota).deliver id = r.deliver id := by
    funext cursor
    unfold deliver
    simp only [drain_withQuota]
    rfl
  rw [inSession, inSession, hdeliver]
  rfl

theorem inOwnSession_eq (hpresent : ¬ r.query.isAbsent)
    (hopen : Session.openAt (r.clock 0) r.range r.options.timeQuota e = (.ok id, e₁)) :
    r.inOwnSession { engine := e } =
      thenFinish id (r.inSession id) { engine := e₁, readings := 1 } := by
  apply Ensures.eq
  unfold inOwnSession readClock
  rw [if_neg hpresent]
  simp only [bind_assoc, ensures_get_bind, ensures_set_bind, pure_bind]
  rw [ensures_bind, Loan.ensures_act, Ensures, hopen]
  exact ⟨rfl, rfl⟩

theorem modify_push_size {α : Type} (xs : Array α) (a : α) (f : α → α) :
    (xs.push a).modify xs.size f = xs.push (f a) := by
  apply Array.ext_getElem?
  intro i
  rw [Array.getElem?_modify, Array.getElem?_push, Array.getElem?_push]
  by_cases hi : xs.size = i
  · rw [if_pos hi, if_pos hi.symm, if_pos hi.symm]
    rfl
  · rw [if_neg hi, if_neg (Ne.symm hi), if_neg (Ne.symm hi)]

theorem openAt_granting (now : Duration) (range : Option KeyRange) (given quota : Int64)
    (e : Engine) : ∃ e₁, Session.openAt now range given e = (.ok e.sessions.size, e₁) ∧
      (e₁.session e.sessions.size).quota = .ofMilliseconds given ∧
      Session.openAt now range quota e = (.ok e.sessions.size,
        (Engine.granting e.sessions.size (.ofMilliseconds quota)).mute e₁) := by
  have hpin := BaseTable.ensures_pin range e
  rcases hpinned : BaseTable.pin range e with ⟨result, e'⟩
  rw [Ensures, hpinned] at hpin
  obtain ⟨⟨files, rfl⟩, scope, hresult, -⟩ := hpin
  obtain rfl : result = .ok scope := hresult
  have hopen : ∀ quota, Session.openAt now range quota e = (.ok e.sessions.size,
      { e with
        files
        sessions := e.sessions.push { start := now, quota := .ofMilliseconds quota, scope } }) := by
    intro quota
    unfold Session.openAt
    rw [Act.bind_apply, hpinned]
    rfl
  refine ⟨_, hopen given, ?_, ?_⟩
  · simp [Engine.session]
  · rw [hopen quota]
    have hgranted := modify_push_size e.sessions
      { start := now, quota := .ofMilliseconds given, scope } fun s =>
        { s with quota := .ofMilliseconds quota }
    exact congrArg (fun sessions => (_, { e with files, sessions })) hgranted.symm

def OutOfTime (f : Fault) : Prop := ∃ elapsed quota, f = .outOfTime elapsed quota

theorem attends_granting (id : SessionId) (quota : Duration) :
    Attends (Engine.granting id quota) (fun f _ => OutOfTime f) id where
  checkpoint now _ := alike_act (Y := fun f _ => OutOfTime f)
    (Session.alike_granting_checkpoint (fun elapsed spent _ => ⟨elapsed, spent, rfl⟩) now _)
    fun _ _ hf => hf
  hasNext _ := alike_quietAct ((Framed.pull _).alike_granting _)
  next _ := alike_quietAct ((Framed.pull _).alike_granting _)
  skipTo _ _ := alike_quietAct ((Framed.pull _).alike_granting _)
  pending _ := rfl

theorem alike_granting_inSession (r : Request) (id : SessionId) (quota : Duration) (p : Progress) :
    (muting (Engine.granting id quota)).Alike (fun f _ => OutOfTime f) (r.inSession id)
      (r.inSession id) p := by
  have hattends := attends_granting id quota
  have hbuild : Alike (Engine.granting id quota) (fun f _ => OutOfTime f)
      (act (r.query.build id)) := alike_quietAct (Query.alike_granting_build r.query)
  exact hbuild.bind (fun cursor => Alike.bind (hattends.alike_checkpoint r) fun _ =>
    hattends.alike_deliver r cursor) p

/-- A run that is not out of time does the same with a quota that is no smaller. -/
theorem run_withQuota (r : Request) (e : Engine) {quota : Int64}
    (h : Duration.ofMilliseconds r.options.timeQuota ≤ Duration.ofMilliseconds quota) :
    (∃ f, (r.run e).1.fault = some f ∧ OutOfTime f) ∨
      ((r.withQuota quota).run e).1 = (r.run e).1 := by
  by_cases habsent : r.query.isAbsent = true
  · have hnothing : ∀ r : Request, r.query.isAbsent = true →
        (r.run e).1 = ⟨[], some .missingRoot⟩ := by
      intro r habsent
      unfold run inOwnSession
      rw [if_pos habsent]
      rfl
    rw [hnothing r habsent, hnothing (r.withQuota quota) habsent]
    exact .inr rfl
  · obtain ⟨e₁, hopen, hgiven, hopen'⟩ :=
      openAt_granting (r.clock 0) r.range r.options.timeQuota quota e
    have hrun := inOwnSession_eq habsent hopen
    have hrun' : (r.withQuota quota).inOwnSession { engine := e } = _ :=
      inOwnSession_eq habsent hopen'
    rw [inSession_withQuota] at hrun'
    have halike := alike_granting_inSession r e.sessions.size (.ofMilliseconds quota)
      { engine := e₁, readings := 1 } (by rw [← hgiven] at h; exact h)
    unfold run
    rw [hrun, hrun']
    unfold thenFinish
    rcases hwork : r.inSession e.sessions.size { engine := e₁, readings := 1 } with ⟨result, p⟩
    rw [Ensures, hwork] at halike
    rcases halike with ⟨f, hf, rfl⟩ | ⟨-, hsame⟩
    · exact .inl ⟨f, rfl, hf⟩
    · have hgranted : r.inSession e.sessions.size { engine := _, readings := 1 } = _ := hsame.eq
      rw [hgranted]
      exact .inr rfl

/-- Of quotas that fit, a larger one changes nothing for a run that is not out of time. -/
theorem run_of_larger_quota (r : Request) (e : Engine) {quota : Int64}
    (hgiven : Duration.Fits r.options.timeQuota) (hquota : Duration.Fits quota)
    (hle : r.options.timeQuota ≤ quota)
    (hdone : ∀ f, (r.run e).1.fault = some f → ¬ OutOfTime f) :
    ((r.withQuota quota).run e).1 = (r.run e).1 := by
  rcases r.run_withQuota e (Duration.ofMilliseconds_le hgiven hquota hle) with ⟨f, hf, hout⟩ | hsame
  · exact absurd hout (hdone f hf)
  · exact hsame

/-- Asks for the rows from 3 on while the clock stands still. -/
def timeless : Request where
  query := .node .or [onRow .text (.eq [120])] .absent .absent
  range := some ⟨3, 9⟩
  clock _ := 0

theorem timeless_of_larger_quota : Duration.Fits timeless.options.timeQuota ∧
    Duration.Fits 9223372036854 ∧ (timeless.run fiveRows).1.fault = none ∧
    ((timeless.withQuota 9223372036854).run fiveRows).1 = (timeless.run fiveRows).1 := by
  have hgiven : Duration.Fits timeless.options.timeQuota := ⟨by decide, by decide⟩
  have hquota : Duration.Fits 9223372036854 := ⟨by decide, by decide⟩
  have hdone : (timeless.run fiveRows).1.fault = none := by decide +kernel
  refine ⟨hgiven, hquota, hdone, run_of_larger_quota timeless fiveRows hgiven hquota (by decide) ?_⟩
  intro f hf
  rw [hdone] at hf
  cases hf

/-- A configuration may ask for more time than fits. Then there is none. -/
theorem timeless_of_wrapped_quota :
    (Options.ofConfig (.object [("time_quota_ms", .integer 9223372036855)])).timeQuota =
      9223372036855 ∧
    (timeless.run fiveRows).1 = ⟨[3, 4, 5, 6], none⟩ ∧
    ((timeless.withQuota 9223372036855).run fiveRows).1 =
      ⟨[], some (.outOfTime 0 (-9223372036854551616))⟩ := by
  refine ⟨rfl, ?_, ?_⟩ <;> decide +kernel

end Query.Request

end SecondaryIndex
