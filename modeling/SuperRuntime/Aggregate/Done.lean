import Mathlib.Data.List.Basic

/-!
The done protocol of the aggregate operator: the downstream caller of `Op.Pull` and the
producer goroutine `run`, joined by the unbuffered channels `resultCh` and `doneCh`. A
`Pull(false)` receives on `resultCh`, a `Pull(true)` sends on `doneCh`, and `sendResult`
offers both in one select. The runtime context is never cancelled and the parent answers
every pull. The aggregator is abstracted to the input it holds, each value tagged with the
number of `Pull(true)` calls returned before it was consumed; `reset` drops it all.
-/

namespace SuperRuntime.Done

/-- `op.Result`: a batch, as the tags of the input it was built from, and whether it carries
an error. -/
structure Result where
  batch : Option (List Nat)
  err : Bool
deriving DecidableEq, Repr

/-- The call sites of `sendResult` in `run`; each decides where `run` goes next. -/
inductive Site
  /-- the parent's error at the top of the loop -/
  | parentErr
  /-- a `Consume` error, after which `run` returns -/
  | consumeErr
  /-- the loop of `sendResults` at end of stream -/
  | drain
  /-- a completed batch in sorted mode -/
  | emit
  /-- a `nextResult` error in sorted mode -/
  | emitErr
deriving DecidableEq, Repr

inductive Producer
  /-- no `Pull(false)` has started `run` -/
  | notStarted
  /-- at the top of the loop, about to pull the parent -/
  | reading
  /-- in the loop of `sendResults`, about to call `nextResult(true)` -/
  | draining
  /-- in the sorted-input loop, about to call `nextResult(false)` -/
  | emitting
  /-- in the select of `sendResult` -/
  | sending (r : Result) (site : Site)
  /-- in the inner select of `sendResult`, sending an error after a done -/
  | sendingErr
  /-- returned, with `resultCh` closed -/
  | exited
deriving DecidableEq, Repr

inductive Caller
  | idle
  /-- in `Pull(false)`, receiving on `resultCh` -/
  | pulling
  /-- in `Pull(true)`, sending on `doneCh` -/
  | cancelling
deriving DecidableEq, Repr

/-- Both parties, the input the aggregator holds, and what `Pull(false)` returned. -/
structure State where
  caller : Caller
  producer : Producer
  /-- the tags of the input the table and the spiller hold -/
  pending : List Nat
  /-- the number of `Pull(true)` calls returned -/
  epoch : Nat
  /-- each result `Pull(false)` returned, with the epoch it returned in -/
  returned : List (Nat × Result)
deriving DecidableEq, Repr

def init : State := ⟨.idle, .notStarted, [], 0, []⟩

/-- Where `run` goes when `sendResult` at a call site returns `(done, true)`. -/
def Site.next (site : Site) (r : Result) (done : Bool) : Producer :=
  match site with
  | .parentErr => .reading
  | .consumeErr => .exited
  | .drain => if r.batch.isNone || done then .reading else .draining
  | .emit => if done then .reading else .emitting
  | .emitErr => .reading

theorem Site.next_ne_sending (site : Site) (r r' : Result) (done : Bool) (site' : Site) :
    site.next r done ≠ .sending r' site' := by
  cases site <;> simp only [Site.next] <;> (try split_ifs) <;> simp

/-- The steps of the two parties; `sorted` is whether `inputDir ≠ 0`. -/
inductive Step (sorted : Bool) : State → State → Prop
  /-- `Pull(false)`, starting `run` on the first call -/
  | pull (s : State) (hc : s.caller = .idle) :
      Step sorted s { s with
        caller := .pulling
        producer := if s.producer = .notStarted then .reading else s.producer }
  /-- `Pull(true)` -/
  | cancel (s : State) (hc : s.caller = .idle) : Step sorted s { s with caller := .cancelling }
  /-- `resultCh` hands the result of `sendResult` to `Pull(false)` -/
  | deliver (s : State) (r : Result) (site : Site) (hc : s.caller = .pulling)
      (hp : s.producer = .sending r site) :
      Step sorted s { s with
        caller := .idle
        producer := site.next r false
        returned := s.returned ++ [(s.epoch, r)] }
  /-- `resultCh` hands over the error of the inner select; `sendResult` returns
  `(true, false)` and `run` returns -/
  | deliverErr (s : State) (hc : s.caller = .pulling) (hp : s.producer = .sendingErr) :
      Step sorted s { s with
        caller := .idle
        producer := .exited
        returned := s.returned ++ [(s.epoch, ⟨none, true⟩)] }
  /-- `Pull(false)` on the closed `resultCh` returns nil -/
  | closed (s : State) (hc : s.caller = .pulling) (hp : s.producer = .exited) :
      Step sorted s { s with
        caller := .idle
        returned := s.returned ++ [(s.epoch, ⟨none, false⟩)] }
  /-- `doneCh` hands the done to `sendResult`, which drops its batch, calls `reset` and then the
  parent's `Pull(true)`; an error, its own or the parent's, goes to the inner select -/
  | done (s : State) (r : Result) (site : Site) (pullErr : Bool) (hc : s.caller = .cancelling)
      (hp : s.producer = .sending r site) :
      Step sorted s { s with
        caller := .idle
        pending := []
        epoch := s.epoch + 1
        producer := if r.err || pullErr then .sendingErr else site.next r true }
  /-- the parent's `Pull(false)` fails -/
  | readErr (s : State) (hp : s.producer = .reading) :
      Step sorted s { s with producer := .sending ⟨none, true⟩ .parentErr }
  /-- the parent's end of stream -/
  | readEos (s : State) (hp : s.producer = .reading) :
      Step sorted s { s with producer := .draining }
  /-- a batch of `n` values, all consumed -/
  | consume (s : State) (n : Nat) (hp : s.producer = .reading) :
      Step sorted s { s with
        pending := s.pending ++ List.replicate n s.epoch
        producer := if sorted then .emitting else .reading }
  /-- a batch whose value after the first `n` fails `Consume` -/
  | consumeFail (s : State) (n : Nat) (hp : s.producer = .reading) :
      Step sorted s { s with
        pending := s.pending ++ List.replicate n s.epoch
        producer := .sending ⟨none, true⟩ .consumeErr }
  /-- `nextResult(true)` returns a batch of held input -/
  | drainBatch (s : State) (b rest : List Nat) (hp : s.producer = .draining)
      (hperm : s.pending.Perm (b ++ rest)) :
      Step sorted s { s with pending := rest, producer := .sending ⟨some b, false⟩ .drain }
  /-- `nextResult(true)` returns nil, or an error -/
  | drainNil (s : State) (err : Bool) (hp : s.producer = .draining) :
      Step sorted s { s with producer := .sending ⟨none, err⟩ .drain }
  /-- `nextResult(false)` returns a batch of completed groups -/
  | emitBatch (s : State) (b rest : List Nat) (hp : s.producer = .emitting)
      (hperm : s.pending.Perm (b ++ rest)) :
      Step sorted s { s with pending := rest, producer := .sending ⟨some b, false⟩ .emit }
  /-- `nextResult(false)` returns nil -/
  | emitNil (s : State) (hp : s.producer = .emitting) :
      Step sorted s { s with producer := .reading }
  /-- `nextResult(false)` fails -/
  | emitFail (s : State) (hp : s.producer = .emitting) :
      Step sorted s { s with producer := .sending ⟨none, true⟩ .emitErr }

inductive Reachable (sorted : Bool) : State → Prop
  | init : Reachable sorted init
  | step {s s' : State} : Reachable sorted s → Step sorted s s' → Reachable sorted s'

def Stuck (sorted : Bool) (s : State) : Prop := ∀ s', ¬ Step sorted s s'

variable {sorted : Bool}

/-- A `Pull(true)` is blocked for good exactly when the producer has not started, has
returned, or waits in the inner select, which offers only `resultCh`. -/
theorem stuck_iff_of_cancelling {s : State} (hc : s.caller = .cancelling) :
    Stuck sorted s ↔
      s.producer = .notStarted ∨ s.producer = .sendingErr ∨ s.producer = .exited := by
  constructor
  · intro h
    match hp : s.producer with
    | .notStarted => exact Or.inl rfl
    | .sendingErr => exact Or.inr (Or.inl rfl)
    | .exited => exact Or.inr (Or.inr rfl)
    | .reading => exact absurd (Step.readEos s hp) (h _)
    | .draining => exact absurd (Step.drainNil s false hp) (h _)
    | .emitting => exact absurd (Step.emitNil s hp) (h _)
    | .sending r site => exact absurd (Step.done s r site false hc hp) (h _)
  · intro hp s' hs
    rcases hp with hp | hp | hp <;> cases hs <;> simp_all

structure Inv (s : State) : Prop where
  /-- a `Pull(false)` waits on a started producer -/
  started : s.caller = .pulling → s.producer ≠ .notStarted
  /-- the aggregator holds only input consumed in the current epoch -/
  pending : ∀ t ∈ s.pending, t = s.epoch
  /-- so does the batch in the select of `sendResult` -/
  held : ∀ r site, s.producer = .sending r site → ∀ b, r.batch = some b → ∀ t ∈ b, t = s.epoch
  /-- each batch `Pull(false)` returned was built from input of the epoch it returned in -/
  returned : ∀ p ∈ s.returned, ∀ b, p.2.batch = some b → ∀ t ∈ b, t = p.1

theorem inv_init : Inv init :=
  ⟨by simp [init], by simp [init], by simp [init], by simp [init]⟩

private theorem returned_snoc {l : List (Nat × Result)} {e : Nat} {r : Result}
    (hl : ∀ p ∈ l, ∀ b, p.2.batch = some b → ∀ t ∈ b, t = p.1)
    (hr : ∀ b, r.batch = some b → ∀ t ∈ b, t = e) :
    ∀ p ∈ l ++ [(e, r)], ∀ b, p.2.batch = some b → ∀ t ∈ b, t = p.1 := by
  intro p hp
  rcases List.mem_append.mp hp with hp | hp
  · exact hl p hp
  · obtain rfl := List.mem_singleton.mp hp
    exact hr

private theorem tags_of_perm {pending b rest : List Nat} {e : Nat} (h : ∀ t ∈ pending, t = e)
    (hperm : pending.Perm (b ++ rest)) : (∀ t ∈ b, t = e) ∧ ∀ t ∈ rest, t = e :=
  ⟨fun t ht => h t (hperm.mem_iff.mpr (List.mem_append_left rest ht)),
    fun t ht => h t (hperm.mem_iff.mpr (List.mem_append_right b ht))⟩

private theorem tags_replicate {pending : List Nat} {e : Nat} (h : ∀ t ∈ pending, t = e) (n : Nat) :
    ∀ t ∈ pending ++ List.replicate n e, t = e := by
  intro t ht
  rcases List.mem_append.mp ht with ht | ht
  · exact h t ht
  · exact List.eq_of_mem_replicate ht

/-- Each step keeps the invariant: a done resets the aggregator in the same step that opens
the next epoch, and a batch is only ever built from what the aggregator holds. -/
theorem inv_step {s s' : State} (h : Inv s) (hs : Step sorted s s') : Inv s' := by
  cases hs with
  | pull hc =>
    refine ⟨fun _ => ?_, h.pending, fun r site hp => h.held r site ?_, h.returned⟩
    · dsimp only
      split_ifs <;> simp_all
    · dsimp only at hp
      split_ifs at hp
      exact hp
  | cancel hc => exact ⟨by simp, h.pending, h.held, h.returned⟩
  | deliver r site hc hp =>
    exact ⟨by simp, h.pending, fun _ _ e => absurd e (Site.next_ne_sending _ _ _ _ _),
      returned_snoc h.returned (h.held r site hp)⟩
  | deliverErr hc hp =>
    exact ⟨by simp, h.pending, by simp, returned_snoc h.returned (by simp)⟩
  | closed hc hp =>
    exact ⟨by simp, h.pending, fun r site e => absurd (hp.symm.trans e) (by simp),
      returned_snoc h.returned (by simp)⟩
  | done r site pullErr hc hp =>
    refine ⟨by simp, by simp, fun r' site' e => ?_, h.returned⟩
    dsimp only at e
    split_ifs at e
    exact absurd e (Site.next_ne_sending _ _ _ _ _)
  | readErr hp => exact ⟨by simp, h.pending, by simp, h.returned⟩
  | readEos hp => exact ⟨by simp, h.pending, by simp, h.returned⟩
  | consume n hp =>
    exact ⟨by split_ifs <;> simp, tags_replicate h.pending n, by split_ifs <;> simp, h.returned⟩
  | consumeFail n hp => exact ⟨by simp, tags_replicate h.pending n, by simp, h.returned⟩
  | drainBatch b rest hp hperm =>
    have ht := tags_of_perm h.pending hperm
    exact ⟨by simp, ht.2, by simpa using ht.1, h.returned⟩
  | drainNil err hp => exact ⟨by simp, h.pending, by simp, h.returned⟩
  | emitBatch b rest hp hperm =>
    have ht := tags_of_perm h.pending hperm
    exact ⟨by simp, ht.2, by simpa using ht.1, h.returned⟩
  | emitNil hp => exact ⟨by simp, h.pending, by simp, h.returned⟩
  | emitFail hp => exact ⟨by simp, h.pending, by simp, h.returned⟩

theorem inv_of_reachable {s : State} (h : Reachable sorted s) : Inv s := by
  induction h with
  | init => exact inv_init
  | step _ hs ih => exact inv_step ih hs

/-- No batch built before a `Pull(true)` returned comes out of a later `Pull(false)`: every
batch returned holds only input consumed in the epoch it was returned in. -/
theorem returned_batch_epoch {s : State} (h : Reachable sorted s) :
    ∀ p ∈ s.returned, ∀ b, p.2.batch = some b → ∀ t ∈ b, t = p.1 :=
  (inv_of_reachable h).returned

/-- One `Pull(false)` in unsorted mode, over a parent batch of two values and its end of stream,
returns one batch of both. -/
theorem returned_batch_epoch_drained :
    Reachable false ⟨.idle, .draining, [], 0, [(0, ⟨some [0, 0], false⟩)]⟩ ∧
      ∀ p ∈ [(0, (⟨some [0, 0], false⟩ : Result))], ∀ b, p.2.batch = some b → ∀ t ∈ b, t = p.1 := by
  have read : Reachable false ⟨.pulling, .reading, [0, 0], 0, []⟩ :=
    .step (.step .init (.pull init rfl)) (.consume _ 2 rfl)
  have drained : Reachable false ⟨.pulling, .sending ⟨some [0, 0], false⟩ .drain, [], 0, []⟩ :=
    .step (.step read (.readEos _ rfl)) (.drainBatch _ [0, 0] [] rfl (List.Perm.refl _))
  have h : Reachable false ⟨.idle, .draining, [], 0, [(0, ⟨some [0, 0], false⟩)]⟩ :=
    .step drained (.deliver _ ⟨some [0, 0], false⟩ .drain rfl rfl)
  exact ⟨h, returned_batch_epoch h⟩

/-- A `Pull(false)` is never blocked for good: whatever the started producer is doing, it can
take a step or meet the call on `resultCh`. -/
theorem not_stuck_of_pulling {s : State} (h : Reachable sorted s) (hc : s.caller = .pulling) :
    ¬ Stuck sorted s := by
  intro hs
  match hp : s.producer with
  | .notStarted => exact (inv_of_reachable h).started hc hp
  | .reading => exact hs _ (Step.readEos s hp)
  | .draining => exact hs _ (Step.drainNil s false hp)
  | .emitting => exact hs _ (Step.emitNil s hp)
  | .sending r site => exact hs _ (Step.deliver s r site hc hp)
  | .sendingErr => exact hs _ (Step.deliverErr s hc hp)
  | .exited => exact hs _ (Step.closed s hc hp)

theorem not_stuck_of_pulling_started :
    Reachable false ⟨.pulling, .reading, [], 0, []⟩ ∧
      (⟨.pulling, .reading, [], 0, []⟩ : State).caller = .pulling ∧
      ¬ Stuck false ⟨.pulling, .reading, [], 0, []⟩ :=
  have h : Reachable false ⟨.pulling, .reading, [], 0, []⟩ := .step .init (.pull init rfl)
  ⟨h, rfl, not_stuck_of_pulling h rfl⟩

/-- Two `Pull(true)` calls blocked for good: one issued before any `Pull(false)`, while `run`
has not started, and one issued after `run` returned on a `Consume` error. -/
theorem pull_true_deadlocks (sorted : Bool) :
    (Reachable sorted ⟨.cancelling, .notStarted, [], 0, []⟩ ∧
      Stuck sorted ⟨.cancelling, .notStarted, [], 0, []⟩) ∧
    (Reachable sorted ⟨.cancelling, .exited, [], 0, [(0, ⟨none, true⟩)]⟩ ∧
      Stuck sorted ⟨.cancelling, .exited, [], 0, [(0, ⟨none, true⟩)]⟩) := by
  have started : Reachable sorted ⟨.pulling, .reading, [], 0, []⟩ := .step .init (.pull init rfl)
  have failed : Reachable sorted ⟨.pulling, .sending ⟨none, true⟩ .consumeErr, [], 0, []⟩ :=
    .step started (.consumeFail _ 0 rfl)
  have exited : Reachable sorted ⟨.idle, .exited, [], 0, [(0, ⟨none, true⟩)]⟩ :=
    .step failed (.deliver _ ⟨none, true⟩ .consumeErr rfl rfl)
  exact ⟨⟨.step .init (.cancel init rfl), (stuck_iff_of_cancelling rfl).mpr (Or.inl rfl)⟩,
    ⟨.step exited (.cancel _ rfl), (stuck_iff_of_cancelling rfl).mpr (Or.inr (Or.inr rfl))⟩⟩

end SuperRuntime.Done
