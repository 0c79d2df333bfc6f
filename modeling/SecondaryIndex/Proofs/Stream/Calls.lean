import SecondaryIndex.Proofs.Stream.Advance

namespace SecondaryIndex

inductive Call
  | hasNext
  | peek
  | next
  | skipTo (target : Token)

inductive Answer
  | has (more : Bool)
  | token (t : Token)
  | done
  deriving DecidableEq

namespace Call

def on (x : CursorId) : Call → Pull.Step Answer
  | hasNext => .has <$> Cursor.hasNext x
  | peek => .token <$> Cursor.peek x
  | next => .token <$> Cursor.next x
  | skipTo target => (fun _ => .done) <$> Cursor.skipTo x target

/-- The call on a sorted list of the tokens that are left. -/
def onList : Call → List Token → Except Fault Answer × List Token
  | hasNext, ts => (.ok (.has !ts.isEmpty), ts)
  | peek, [] => (.error .exhausted, [])
  | peek, t :: ts => (.ok (.token t), t :: ts)
  | next, [] => (.error .exhausted, [])
  | next, t :: ts => (.ok (.token t), ts)
  | skipTo target, ts => (.ok .done, ts.filter (target ≤ ·))

/-- The answers to some calls, each on what the one before has left. A call may fail, and the others
are made all the same. -/
def answers {σ : Type} (call : Call → σ → Except Fault Answer × σ) :
    List Call → σ → List (Except Fault Answer)
  | [], _ => []
  | c :: rest, s => (call c s).1 :: answers call rest (call c s).2

theorem endless_not_mem_answers (calls : List Call) (ts : List Token) :
    .error .endless ∉ answers onList calls ts := by
  induction calls generalizing ts with
  | nil => exact List.not_mem_nil
  | cons c rest ih =>
    unfold answers
    apply List.not_mem_cons_of_ne_of_not_mem ?_ (ih _)
    cases c with
    | hasNext => exact nofun
    | peek => cases ts <;> exact nofun
    | next => cases ts <;> exact nofun
    | skipTo target => exact nofun

end Call

theorem Rising.dropWhile_eq_filter {ts : List Token} (h : Rising ts) (target : Token) :
    ts.dropWhile (· < target) = ts.filter (target ≤ ·) := by
  apply Rising.ext (h.sublist (List.dropWhile_sublist _)) (h.filter _)
  intro u
  rw [h.mem_dropWhile, List.mem_filter, decide_eq_true_eq]

section

variable {cs : Array Cursor} {x : Nat} {p : Part}

theorem Streams.peek (h : Streams cs (x + 1) x p) :
    Ensures (Cursor.peek x) cs fun r cs' => Streams cs' (x + 1) x p ∧
      r = match p.tokens with
        | [] => .error .exhausted
        | t :: _ => .ok t := by
  unfold Cursor.peek Pull.peek
  apply ((Pull.reads_advance (x + 1)).look h).bind_ok ?_
  rintro cs₁ ⟨h₁, -⟩
  cases p.tokens with
  | nil => exact ⟨h₁, rfl⟩
  | cons t ts => exact ⟨h₁, rfl⟩

/-- One call moves a stream as it moves the list of its tokens. -/
theorem Streams.on (h : Streams cs (x + 1) x p) (c : Call) :
    Ensures (c.on x) cs fun r cs' => r = (c.onList p.tokens).1 ∧
      Streams cs' (x + 1) x { p with tokens := (c.onList p.tokens).2 } := by
  have hreads := Pull.reads_advance (x + 1)
  cases c with
  | hasNext =>
    apply ensures_map.2
    apply h.hasNext.mono
    rintro _ cs₁ ⟨rfl, h₁, -⟩
    refine ⟨?_, h₁⟩
    rw [Call.onList]
    cases p.tokens <;> rfl
  | peek =>
    apply ensures_map.2
    apply h.peek.mono
    rintro r cs₁ ⟨h₁, rfl⟩
    rcases p with ⟨reads, _ | ⟨t, ts⟩⟩ <;> exact ⟨rfl, h₁⟩
  | next =>
    apply ensures_map.2
    rcases p with ⟨reads, _ | ⟨t, ts⟩⟩
    · -- Nothing is left, so that the look ahead fails already.
      unfold Cursor.next Pull.next
      apply h.peek.bind
      · rintro _ _ ⟨-, ⟨⟩⟩
      · rintro _ cs₁ ⟨h₁, ⟨⟩⟩
        exact ⟨rfl, h₁⟩
    · apply (hreads.next h rfl).mono
      rintro _ cs₁ ⟨rfl, h₁, -⟩
      exact ⟨rfl, h₁⟩
  | skipTo target =>
    apply ensures_map.2
    apply (hreads.skipTo target h).mono
    rintro _ cs₁ ⟨rfl, h₁, -⟩
    refine ⟨rfl, ?_⟩
    rw [Part.skip, h.rising.dropWhile_eq_filter] at h₁
    exact h₁

/-- Any calls on a stream are answered as by the list of its tokens. -/
theorem Streams.answers_eq (h : Streams cs (x + 1) x p) (calls : List Call) :
    Call.answers (Call.on x) calls cs = Call.answers Call.onList calls p.tokens := by
  induction calls generalizing cs p with
  | nil => rfl
  | cons c rest ih =>
    obtain ⟨hanswer, hleft⟩ := h.on c
    unfold Call.answers
    rw [hanswer]
    exact congrArg _ (ih hleft)

end

end SecondaryIndex
