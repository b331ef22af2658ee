import Ipfi.ResponseBranch
import Ipfi.Waiting

/-!
# Receiving a response as a stream of chunks

A chunk receiver gets every chunk that ends after it was registered, and then the end of the response.  What had ended
before it was registered stays in the message buffer, and is never handed over.
-/

namespace Ipfi

variable {w : IntFeature}

namespace Site

variable {s : Site w} {p : ProcedureIndex w} {c : CallIndex w} {b : IpfiInteger w} {l : LockRef}
  {r : ChunkReceiverHandle w} {done q : List (List UInt8)} {cur : List UInt8} {out : List (Option (List UInt8))}

/-! ### What the holder of a receiver sees -/

inductive StreamEvent
  /-- A part of the response arrives. -/
  | part (bytes : List UInt8) (t : Terminator)
  /-- `recv_raw` is called; a call that would have to wait is made again later. -/
  | recv

/-- The parts that arrive in the course of the events. -/
def arriving : List StreamEvent → List Part
  | [] => []
  | .part bytes t :: events => (bytes, t) :: arriving events
  | .recv :: events => arriving events

/-- One event, with what the calls of `recv_raw` have returned so far. -/
def streamStep (p : ProcedureIndex w) (c : CallIndex w) (r : ChunkReceiverHandle w)
    (x : Site w × List (Option (List UInt8))) : StreamEvent → Site w × List (Option (List UInt8))
  | .part bytes t => (((receive (.response p c t bytes)).run x.1).state, x.2)
  | .recv =>
    match r.recvRaw.run x.1 with
    | .ok chunk s => (s, x.2 ++ [chunk])
    | .error _ s => (s, x.2)

/-- What the calls of `recv_raw` return in the course of the events. -/
def received (p : ProcedureIndex w) (c : CallIndex w) (r : ChunkReceiverHandle w) (s : Site w)
    (events : List StreamEvent) : List (Option (List UInt8)) :=
  (events.foldl (streamStep p c r) (s, [])).2

/-- The parts are those of a whole response. -/
def EndsInComplete (parts : List Part) : Prop :=
  ∃ init bytes, parts = init ++ [(bytes, .complete)] ∧ ∀ q ∈ init, q.2 ≠ .complete

/-- Registered after the parts `before`, a receiver gets all chunks and then the end, however its calls and the parts
`after` alternate. -/
def StreamsAll (s : Site w) (p : ProcedureIndex w) (c : CallIndex w) (h : CallHandle w) (before after : List Part) :
    Prop :=
  ∃ r s', h.waitChunkStream.run (afterParts p c s before) = .ok r s' ∧
    ∀ events, arriving events = after → ∀ n > (chunksOf (before ++ after)).length,
      ∃ m, received p c r s' (events ++ List.replicate n .recv) =
        (chunksOf (before ++ after)).map some ++ List.replicate (m + 1) none

/-! ### The streamed response -/

/-- The response is incomplete and streamed: `q` waits in the channel, `done ++ [cur]` is in the buffer. -/
structure Streaming (s : Site w) (p : ProcedureIndex w) (c : CallIndex w) (b : IpfiInteger w)
    (r : ChunkReceiverHandle w) (done : List (List UInt8)) (cur : List UInt8) (q : List (List UInt8)) : Prop where
  awaits : s.Awaits p c b
  buffer : s.interface.messages.lookup b =
    some { chunks := done ++ [cur], completeLock := r.rx.completeLock, sender := some (some r.rx.rx) }
  lock : s.interface.locks r.rx.completeLock = .incomplete
  chan : s.interface.chans r.rx.rx = { queue := q, senderAlive := true, receiverAlive := true }

/-- The response is complete and has been handed over but for what waits in the channel. -/
structure Drained (s : Site w) (r : ChunkReceiverHandle w) (q : List (List UInt8)) : Prop where
  lock : s.interface.locks r.rx.completeLock = .complete
  chan : s.interface.chans r.rx.rx = { queue := q, senderAlive := false, receiverAlive := true }

private theorem Streaming.ne (h : s.Streaming p c b r done cur q) :
    s.interface.locks r.rx.completeLock ≠ .complete := by
  rw [h.lock]; decide

private theorem Streaming.alive (h : s.Streaming p c b r done cur q) :
    (s.interface.chans r.rx.rx).receiverAlive = true := by
  rw [h.chan]

theorem Streaming.part_none (h : s.Streaming p c b r done cur q) (bytes : List UInt8) :
    ((receive (.response p c .none bytes)).run s).state.Streaming p c b r done (cur ++ bytes) q := by
  show ((receiveResponse p c .none bytes).run s).state.Streaming p c b r _ _ _
  rw [receiveResponse_run h.awaits (Interface.receivePart_none h.buffer h.ne rfl bytes)]
  exact ⟨⟨h.awaits.running, h.awaits.mapped⟩, Interface.lookup_setMessage_self _ _ _, h.lock, h.chan⟩

theorem Streaming.part_chunk (h : s.Streaming p c b r done cur q) (bytes : List UInt8) :
    ((receive (.response p c .chunk bytes)).run s).state.Streaming p c b r done [] (q ++ [cur ++ bytes]) := by
  show ((receiveResponse p c .chunk bytes).run s).state.Streaming p c b r _ _ _
  rw [receiveResponse_run h.awaits (Interface.receivePart_chunk_alive h.buffer h.ne rfl rfl h.alive bytes)]
  refine ⟨⟨h.awaits.running, h.awaits.mapped⟩, Interface.lookup_setMessage_self _ _ _, h.lock, ?_⟩
  exact (Function.update_self ..).trans (by rw [h.chan])

theorem Streaming.part_complete (h : s.Streaming p c b r done cur q) (bytes : List UInt8) :
    ((receive (.response p c .complete bytes)).run s).state.Drained r (q ++ [cur ++ bytes]) := by
  show ((receiveResponse p c .complete bytes).run s).state.Drained r _
  rw [receiveResponse_run h.awaits (Interface.receivePart_complete_alive h.buffer h.ne rfl rfl h.alive bytes)]
  refine ⟨?_, ?_⟩
  · show (Interface.pop _ b).2.locks _ = _
    rw [Interface.pop_locks]
    exact Function.update_self ..
  · show (Interface.pop _ b).2.chans _ = _
    rw [Interface.pop_chans (Interface.lookup_handOver_self ..)]
    show Function.update _ _ _ _ = _
    rw [Function.update_self, Interface.handOver_chans_self]
    simp [h.chan]

/-- A call of `recv_raw` on a receiver whose lock is not poisoned. -/
theorem recvRaw_run (hl : s.interface.locks r.rx.completeLock ≠ .poisoned) :
    r.recvRaw.run s = match (s.interface.chans r.rx.rx).queue with
      | x :: _ => .ok (some x) { s with interface := (s.interface.takeChunk r.rx.rx).2 }
      | [] =>
        if (s.interface.chans r.rx.rx).senderAlive then
          .error .blocked { s with interface := (s.interface.takeChunk r.rx.rx).2 }
        else .ok none ⟨(s.interface.takeChunk r.rx.rx).2,
          { s.wire with idleCallHandles := s.wire.idleCallHandles.erase r.responseIdx }⟩ := by
  cases hq : (s.interface.chans r.rx.rx).queue with
  | cons x q => simp [ChunkReceiverHandle.recvRaw, ChunkReceiver.recvRaw, onInterface, Interface.takeChunk, hl, hq]
  | nil =>
    cases ha : (s.interface.chans r.rx.rx).senderAlive <;>
      simp [ChunkReceiverHandle.recvRaw, ChunkReceiver.recvRaw, onInterface, Interface.takeChunk, hl, hq, ha,
        CallHandle.strike, onWire]

private theorem takeChunk_chans {ch : ChanRef} {k : Chan} (h : s.interface.chans ch = k) :
    (s.interface.takeChunk ch).2.chans ch = { k with queue := k.queue.tail } := by
  subst h
  exact Function.update_self ..

theorem Streaming.recv_cons {x : List UInt8} (h : s.Streaming p c b r done cur (x :: q)) :
    ∃ s', r.recvRaw.run s = .ok (some x) s' ∧ s'.Streaming p c b r done cur q := by
  refine ⟨{ s with interface := (s.interface.takeChunk r.rx.rx).2 }, ?_,
    ⟨h.awaits.running, h.awaits.mapped⟩, h.buffer, h.lock, takeChunk_chans h.chan⟩
  rw [recvRaw_run (by rw [h.lock]; decide), h.chan]

theorem Streaming.recv_nil (h : s.Streaming p c b r done cur []) :
    ∃ s', r.recvRaw.run s = .error .blocked s' ∧ s'.Streaming p c b r done cur [] := by
  refine ⟨{ s with interface := (s.interface.takeChunk r.rx.rx).2 }, ?_,
    ⟨h.awaits.running, h.awaits.mapped⟩, h.buffer, h.lock, takeChunk_chans h.chan⟩
  rw [recvRaw_run (by rw [h.lock]; decide), h.chan]
  rfl

theorem Drained.recv_cons {x : List UInt8} (h : s.Drained r (x :: q)) :
    ∃ s', r.recvRaw.run s = .ok (some x) s' ∧ s'.Drained r q := by
  refine ⟨{ s with interface := (s.interface.takeChunk r.rx.rx).2 }, ?_, h.lock, takeChunk_chans h.chan⟩
  rw [recvRaw_run (by rw [h.lock]; decide), h.chan]

theorem Drained.recv_nil (h : s.Drained r []) : ∃ s', r.recvRaw.run s = .ok none s' ∧ s'.Drained r [] := by
  refine ⟨⟨(s.interface.takeChunk r.rx.rx).2,
    { s.wire with idleCallHandles := s.wire.idleCallHandles.erase r.responseIdx }⟩, ?_, h.lock, takeChunk_chans h.chan⟩
  rw [recvRaw_run (by rw [h.lock]; decide), h.chan]
  rfl

/-! ### Runs -/

theorem streamStep_recv_ok {s' : Site w} {x : Option (List UInt8)} (h : r.recvRaw.run s = .ok x s') :
    streamStep p c r (s, out) .recv = (s', out ++ [x]) := by
  simp [streamStep, h]

theorem streamStep_recv_error {s' : Site w} {e : Stop (Error w)} (h : r.recvRaw.run s = .error e s') :
    streamStep p c r (s, out) .recv = (s', out) := by
  simp [streamStep, h]

theorem arriving_map (parts : List Part) : arriving (parts.map fun q => .part q.1 q.2) = parts := by
  induction parts with
  | nil => rfl
  | cons q parts ih => rw [List.map_cons, arriving, ih]

theorem eq_replicate_recv {events : List StreamEvent} (h : arriving events = []) :
    events = List.replicate events.length .recv := by
  induction events with
  | nil => rfl
  | cons e events ih =>
    cases e with
    | part bytes t => simp [arriving] at h
    | recv => rw [List.length_cons, List.replicate_succ, ← ih h]

/-- Once the response is complete, what waits in the channel is received, and then its end, again and again. -/
theorem Drained.run (h : s.Drained r q) {n : Nat} (hn : q.length < n) :
    ∃ m, ((List.replicate n StreamEvent.recv).foldl (streamStep p c r) (s, out)).2 =
      out ++ q.map some ++ List.replicate (m + 1) none := by
  induction n generalizing s q out with
  | zero => omega
  | succ n ih =>
    rw [List.replicate_succ, List.foldl_cons]
    cases q with
    | cons x q =>
      obtain ⟨s', hr, h'⟩ := h.recv_cons
      obtain ⟨m, hm⟩ := ih h' (by simpa using hn)
      exact ⟨m, by rw [streamStep_recv_ok hr, hm]; simp⟩
    | nil =>
      obtain ⟨s', hr, h'⟩ := h.recv_nil
      rw [streamStep_recv_ok hr]
      cases n with
      | zero => exact ⟨0, by simp⟩
      | succ n =>
        obtain ⟨m, hm⟩ := ih h' (by simp)
        exact ⟨m + 1, by rw [hm, List.replicate_succ (n := m + 1)]; simp⟩

/-- While a response is streamed, each of its chunks goes through the channel. -/
theorem Streaming.run (h : s.Streaming p c b r done cur q) {events : List StreamEvent}
    (he : EndsInComplete (arriving events)) {n : Nat}
    (hn : (q ++ Cut.chunksFrom cur (marked (arriving events))).length < n) :
    ∃ m, ((events ++ List.replicate n StreamEvent.recv).foldl (streamStep p c r) (s, out)).2 =
      out ++ (q ++ Cut.chunksFrom cur (marked (arriving events))).map some ++ List.replicate (m + 1) none := by
  induction events generalizing s cur q out with
  | nil =>
    obtain ⟨init, bytes, heq, -⟩ := he
    exact absurd heq (by simp [arriving])
  | cons e events ih =>
    rw [List.cons_append, List.foldl_cons]
    cases e with
    | recv =>
      cases q with
      | cons x q =>
        obtain ⟨s', hr, h'⟩ := h.recv_cons
        obtain ⟨m, hm⟩ := ih h' he (by simp only [arriving] at hn; simp at hn ⊢; omega)
        exact ⟨m, by rw [streamStep_recv_ok hr, hm]; simp [arriving]⟩
      | nil =>
        obtain ⟨s', hr, h'⟩ := h.recv_nil
        obtain ⟨m, hm⟩ := ih h' he hn
        exact ⟨m, by rw [streamStep_recv_error hr, hm]; rfl⟩
    | part bytes t =>
      obtain ⟨init, last, heq, hinit⟩ := he
      cases init with
      | nil =>
        -- the last part: what follows are calls of `recv_raw` only
        obtain ⟨⟨rfl, rfl⟩, hrest⟩ : (bytes = last ∧ t = .complete) ∧ arriving events = [] := by
          simpa [arriving] using heq
        have hcut : Cut.chunksFrom cur (marked (arriving (.part bytes .complete :: events))) = [cur ++ bytes] := by
          rw [arriving, hrest]; rfl
        rw [hcut] at hn ⊢
        rw [eq_replicate_recv hrest, List.replicate_append_replicate]
        exact (h.part_complete bytes).run (by omega)
      | cons q' init =>
        obtain ⟨rfl, hrest⟩ : (bytes, t) = q' ∧ arriving events = init ++ [(last, .complete)] := by
          simpa [arriving] using heq
        have he' : EndsInComplete (arriving events) := ⟨init, last, hrest, fun q hq => hinit q (by simp [hq])⟩
        cases t with
        | complete => exact absurd rfl (hinit (bytes, .complete) (by simp))
        | none => exact ih (h.part_none bytes) he' hn
        | chunk =>
          have hcut : q ++ Cut.chunksFrom cur (marked (arriving (.part bytes .chunk :: events))) =
              (q ++ [cur ++ bytes]) ++ Cut.chunksFrom [] (marked (arriving events)) := by
            rw [List.append_assoc]; rfl
          rw [hcut] at hn ⊢
          exact ih (h.part_chunk bytes) he' hn

/-! ### Registering a receiver -/

theorem waitChunkStream_run {h : CallHandle w} {cs : List (List UInt8)}
    (hm : s.interface.messages.lookup h.responseIdx = some { chunks := cs, completeLock := l, sender := none }) :
    h.waitChunkStream.run s =
      .ok ⟨⟨s.interface.chanCount, l, h.responseIdx⟩, h.responseIdx⟩
        ⟨s.interface.openChan.2.setMessage h.responseIdx
          { chunks := cs, completeLock := l, sender := some (some s.interface.chanCount) }, s.wire⟩ := by
  simp only [CallHandle.waitChunkStream, onInterface, EStateM.run_bind, EStateM.run_zoom,
    Interface.getChunkStream_run hm, EStateM.Result.mapState_ok, EStateM.run_pure]
  rfl

theorem Accumulates.register {h : CallHandle w} (ha : s.Accumulates p c h.responseIdx l (done ++ [cur])) :
    ∃ r s', h.waitChunkStream.run s = .ok r s' ∧ s'.Streaming p c h.responseIdx r done cur [] :=
  ⟨_, _, waitChunkStream_run ha.buffer, ⟨ha.awaits.running, ha.awaits.mapped⟩,
    Interface.lookup_setMessage_self _ _ _, ha.lock, Function.update_self ..⟩

/-- The response was complete before the receiver was registered: nothing is left to end the stream. -/
structure Stuck (s : Site w) (r : ChunkReceiverHandle w) : Prop where
  lock : s.interface.locks r.rx.completeLock = .complete
  chan : s.interface.chans r.rx.rx = { queue := [], senderAlive := true, receiverAlive := true }

theorem Completed.register {h : CallHandle w} {cs : List (List UInt8)} (ha : s.Completed h.responseIdx l cs) :
    ∃ r s', h.waitChunkStream.run s = .ok r s' ∧ s'.Stuck r :=
  ⟨_, _, waitChunkStream_run ha.buffer, ha.lock, Function.update_self ..⟩

theorem Stuck.run (h : s.Stuck r) (n : Nat) :
    ((List.replicate n StreamEvent.recv).foldl (streamStep p c r) (s, out)).2 = out := by
  induction n generalizing s with
  | zero => rfl
  | succ n ih =>
    have hr : r.recvRaw.run s = .error .blocked { s with interface := (s.interface.takeChunk r.rx.rx).2 } := by
      rw [recvRaw_run (by rw [h.lock]; decide), h.chan]
      rfl
    rw [List.replicate_succ, List.foldl_cons, streamStep_recv_error hr]
    exact ih ⟨h.lock, takeChunk_chans h.chan⟩

/-! ### When all chunks are received -/

private theorem map_some_append_replicate_none {xs ys : List (List UInt8)} {m k : Nat}
    (h : xs.map some ++ List.replicate (m + 1) none = ys.map some ++ List.replicate (k + 1) none) : xs = ys := by
  induction xs generalizing ys with
  | nil =>
    cases ys with
    | nil => rfl
    | cons y ys => simp [List.replicate_succ] at h
  | cons x xs ih =>
    cases ys with
    | nil => simp [List.replicate_succ] at h
    | cons y ys =>
      simp only [List.map_cons, List.cons_append, List.cons.injEq, Option.some.injEq] at h
      rw [h.1, ih h.2]

/-- A fresh response message: one empty chunk, and no receiver. -/
abbrev FreshResponse (s : Site w) (p : ProcedureIndex w) (c : CallIndex w) (h : CallHandle w) : Prop :=
  s.Accumulates p c h.responseIdx h.completeLock [[]]

variable {h : CallHandle w} {before after : List Part}

private theorem EndsInComplete.split (he : EndsInComplete (before ++ after)) :
    (after = [] ∧ EndsInComplete before) ∨ ((∀ q ∈ before, q.2 ≠ .complete) ∧ EndsInComplete after) := by
  obtain ⟨init, bytes, heq, hinit⟩ := he
  rcases List.eq_nil_or_concat' after with rfl | ⟨after', q, rfl⟩
  · exact .inl ⟨rfl, init, bytes, by simpa using heq, hinit⟩
  · rw [← List.append_assoc] at heq
    obtain ⟨rfl, hq⟩ := List.append_inj' heq rfl
    cases hq
    exact .inr ⟨fun q hq => hinit q (by simp [hq]), after', bytes, rfl, fun q hq => hinit q (by simp [hq])⟩

/-- Registered before the response is complete, a receiver gets the chunks that have not ended yet. -/
private theorem FreshResponse.received (hs : s.FreshResponse p c h) (hb : ∀ q ∈ before, q.2 ≠ .complete)
    (ha : EndsInComplete after) :
    ∃ r s' done cur, h.waitChunkStream.run (afterParts p c s before) = .ok r s' ∧
      chunksOf before = done ++ [cur] ∧ chunksOf (before ++ after) = done ++ Cut.chunksFrom cur (marked after) ∧
      ∀ events, arriving events = after → ∀ n > (Cut.chunksFrom cur (marked after)).length,
        ∃ m, received p c r s' (events ++ List.replicate n .recv) =
          (Cut.chunksFrom cur (marked after)).map some ++ List.replicate (m + 1) none := by
  obtain ⟨done, cur, hcut⟩ := Cut.exists_chunksFrom [] (marked before)
  have hacc := Accumulates.parts (show s.Accumulates p c h.responseIdx h.completeLock ([] ++ [[]]) from hs) hb
  rw [List.nil_append, hcut] at hacc
  obtain ⟨r, s', hr, hstr⟩ := hacc.register
  refine ⟨r, s', done, cur, hr, hcut, ?_, ?_⟩
  · rw [chunksOf, marked_append]
    exact Cut.chunksFrom_append hcut _
  · rintro events rfl n hn
    obtain ⟨m, hm⟩ := hstr.run ha (by simpa using hn)
    exact ⟨m, by rw [Site.received, hm]; rfl⟩

/-- Registered after the response is complete, a receiver gets nothing. -/
private theorem FreshResponse.not_streamsAll (hs : s.FreshResponse p c h) (hb : EndsInComplete before) :
    ¬ s.StreamsAll p c h before [] := by
  obtain ⟨init, bytes, rfl, hinit⟩ := hb
  obtain ⟨done, cur, hcut⟩ := Cut.exists_chunksFrom [] (marked init)
  have hacc := Accumulates.parts (show s.Accumulates p c h.responseIdx h.completeLock ([] ++ [[]]) from hs) hinit
  rw [List.nil_append, hcut] at hacc
  obtain ⟨r, s', hr, hstuck⟩ := (hacc.complete bytes).register
  rintro ⟨r', s'', hr', hall⟩
  have happ : afterParts p c s (init ++ [(bytes, .complete)]) =
      ((receive (.response p c .complete bytes)).run (afterParts p c s init)).state := by
    rw [afterParts, List.foldl_append]; rfl
  rw [happ, hr] at hr'
  cases hr'
  obtain ⟨m, hm⟩ := hall [] rfl _ (Nat.lt_succ_self _)
  rw [Site.received, List.nil_append, hstuck.run] at hm
  exact absurd (congrArg List.length hm) (by simp)

theorem streamsAll_iff (hs : s.FreshResponse p c h) (hend : EndsInComplete (before ++ after)) :
    s.StreamsAll p c h before after ↔ ∀ q ∈ before, q.2 = .none := by
  rcases hend.split with ⟨rfl, hb⟩ | ⟨hb, ha⟩
  · obtain ⟨init, bytes, rfl, -⟩ := id hb
    refine iff_of_false (hs.not_streamsAll hb) fun hall => ?_
    cases hall (bytes, .complete) (by simp)
  · obtain ⟨r, s', done, cur, hr, hcut, hchunks, hrec⟩ := hs.received hb ha
    have hlen := Cut.length_chunksFrom [] (marked before)
    rw [show Cut.chunksFrom [] (marked before) = done ++ [cur] from hcut, List.length_append] at hlen
    have hdone : done = [] ↔ ∀ q ∈ before, q.2 = .none := by
      rw [← List.length_eq_zero_iff, show done.length = (marked before).countP (·.2) by simpa using hlen,
        List.countP_eq_zero]
      simp only [marked, List.mem_map, forall_exists_index, and_imp, forall_apply_eq_imp_iff₂, decide_eq_true_eq]
      refine forall₂_congr fun q hq => ?_
      have := hb q hq
      cases ht : q.2 <;> simp_all
    rw [← hdone]
    constructor
    · rintro ⟨r', s'', hr', hall⟩
      rw [hr] at hr'
      cases hr'
      -- the same calls return the chunks with and without those that ended before the receiver was registered
      have harr : arriving (after.map fun q => .part q.1 q.2) = after := arriving_map after
      obtain ⟨m, hm⟩ := hall _ harr _ (Nat.lt_succ_self _)
      obtain ⟨k, hk⟩ := hrec _ harr ((chunksOf (before ++ after)).length + 1)
        (by rw [hchunks, List.length_append]; omega)
      rw [hk, hchunks] at hm
      exact List.self_eq_append_left.1 (map_some_append_replicate_none hm)
    · rintro rfl
      refine ⟨r, s', hr, fun events he n hn => ?_⟩
      rw [hchunks, List.nil_append] at hn ⊢
      exact hrec events he n hn

/-- A call that was just made on a wire of its own. -/
private def calling : Site .u32 := ((callWithBytes true ⟨0⟩ ⟨[], by decide⟩).run ⟨.new, .new ⟨0⟩ false 1⟩).state

private theorem calling_fresh : calling.FreshResponse ⟨0⟩ ⟨0⟩ ⟨0, 0⟩ := ⟨⟨rfl, rfl⟩, rfl, rfl⟩

/-- A receiver registered in the middle of the first chunk. -/
theorem streamsAll_iff_first : calling.StreamsAll ⟨0⟩ ⟨0⟩ ⟨0, 0⟩ [([1], .none)] [([2], .chunk), ([3], .complete)] := by
  have hend : EndsInComplete ([([1], .none)] ++ [([2], .chunk), ([3], .complete)]) :=
    ⟨[([1], .none), ([2], .chunk)], [3], rfl, by decide⟩
  exact (streamsAll_iff calling_fresh hend).2 (by decide)

/-- What a receiver gets that is registered after the first of two chunks has ended. -/
private def late : List (Option (List UInt8)) :=
  match (CallHandle.waitChunkStream ⟨0, 0⟩).run (afterParts ⟨0⟩ ⟨0⟩ calling [([1], .chunk)]) with
  | .ok r s => received ⟨0⟩ ⟨0⟩ r s ([.part [2] .complete] ++ List.replicate 3 .recv)
  | .error _ _ => []

theorem not_streamsAll_late : ¬ calling.StreamsAll ⟨0⟩ ⟨0⟩ ⟨0, 0⟩ [([1], .chunk)] [([2], .complete)] := by
  rintro ⟨r, s', hr, hall⟩
  obtain ⟨m, hm⟩ := hall [.part [2] .complete] rfl 3 (by decide)
  have hlate : late = [some [1], some [2]] ++ List.replicate (m + 1) none := by
    rw [late, hr]
    exact hm
  have hhead : late.head? = some (some [1]) := by rw [hlate]; rfl
  exact absurd hhead (by decide +kernel)

end Site

end Ipfi
