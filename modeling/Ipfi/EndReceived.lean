import Ipfi.Polling
import Ipfi.Lib.Fair

/-!
# Receiving the end of a message

Somebody who keeps the receiver of a message and calls `recv_raw` again and again receives the end of the message, if
one of the threads is to end it and all of them go on, however often the calls time out and whoever poisons the lock
before.
-/

namespace Ipfi

open Interface

variable {w : IntFeature} {ι : Type}

/-- Anything but dropping the receiver. -/
def PollingAction.Keeps : PollingAction ι → Prop
  | dropReceiver => False
  | _ => True

/-- How many steps away a chunk is, or the end. -/
def RecvPlace.rank : RecvPlace → Nat
  | recvTimeout => 0
  | begin => 1
  | idle => 2
  | tryRecv => 3

namespace Polling

open PollingAction (Keeps)

variable {methods : ι → SendMethod} {r : ChunkReceiver w} {x : Polling ι w} {t t' : ι} {g : SendStage ι}
  {q ds : List (List UInt8)} {a : PollingAction ι}

/-- The message has come to this stage. -/
def At (r : ChunkReceiver w) (g : SendStage ι) (x : Polling ι w) : Prop := ∃ q ds, x.Stands r g q ds

/-- Only the holder of the receiver goes on. -/
theorem Stands.receive (h : x.Stands r g q ds) : ∃ q', (x.receive r).Stands r g q' ds := by
  have hqueue : (x.interface.chans r.rx).queue = q := by rw [h.chan]
  have hreceives := receive_receives r x
  generalize x.receive r = y at hreceives
  cases hreceives with
  | idles => exact ⟨q, h⟩
  | poisoned | waits | timesOut => exact ⟨q, h.moves _⟩
  | takes c q' _ hq => exact ⟨_, h.answers (by rw [← hqueue, hq]; rfl)⟩
  | fails _ hq | ends _ hq => exact ⟨_, h.answers (by rw [← hqueue, hq]; rfl)⟩

variable [DecidableEq ι]

theorem step_call (methods : ι → SendMethod) (r : ChunkReceiver w) (hd : x.dropped = false) :
    x.step methods r .call = if x.recv = .idle then { x with recv := .begin } else x := by
  simp only [step, hd]
  cases x.recv <;> rfl

/-- The message comes to a new stage by a step of a thread only. -/
theorem At.step (h : At r g x) (methods : ι → SendMethod) (hd : x.dropped = false) (ha : a.Keeps) :
    At r g (x.step methods r a) ∧ (∀ t, a ≠ .send t) ∨
      ∃ t g' q q', a = .send t ∧ SendStage.Sends t g q g' q' ∧ g' ≠ .stored ∧ At r g' (x.step methods r a) := by
  obtain ⟨q, ds, h⟩ := h
  cases a with
  | send t =>
    obtain ⟨g', q', ds', hsent⟩ := h.send methods t
    refine .inr ⟨t, g', q, q', rfl, hsent.sends, ?_, q', ds', hsent.stands⟩
    exact (hsent.stands.kept ((send_dropped ..).trans hd)).2
  | call =>
    rw [step_call methods r hd]
    split
    · exact .inl ⟨⟨q, ds, h.moves _⟩, nofun⟩
    · exact .inl ⟨⟨q, ds, h⟩, nofun⟩
  | receive =>
    obtain ⟨q', h'⟩ := h.receive
    exact .inl ⟨⟨q', ds, h'⟩, nofun⟩
  | dropReceiver => exact absurd ha id

/-! ### What stays so -/

/-- The receiver is held, and a thread is to end the message or the message is complete. -/
structure Ending (methods : ι → SendMethod) (r : ChunkReceiver w) (t : ι) (x : Polling ι w) : Prop where
  heard : Heard methods r x
  held : x.dropped = false
  begun : x.place t = .begin ∨ x.interface.locks r.completeLock = .complete

omit [DecidableEq ι] in
theorem At.complete (h : At r g x) : x.interface.locks r.completeLock = .complete ↔ g ≠ .writing :=
  let ⟨_, _, h⟩ := h
  h.lock

/-- A complete message stays so. -/
theorem complete_step (h : ∃ g, At r g x) (hd : x.dropped = false) (ha : a.Keeps)
    (hl : x.interface.locks r.completeLock = .complete) :
    (x.step methods r a).interface.locks r.completeLock = .complete := by
  obtain ⟨g, h⟩ := h
  have hg := h.complete.1 hl
  rcases h.step methods hd ha with ⟨h', -⟩ | ⟨t, g', q, q', -, hsends, -, h'⟩
  · exact h'.complete.2 hg
  · exact h'.complete.2 (hsends.not_writing hg)

theorem held_step (hd : x.dropped = false) (ha : a.Keeps) : (x.step methods r a).dropped = false := by
  cases a with
  | send t => exact (send_dropped ..).trans hd
  | call =>
    rw [step_call methods r hd]
    split <;> exact hd
  | receive =>
    have hreceives := receive_receives r x
    show (x.receive r).dropped = false
    generalize x.receive r = y at hreceives
    cases hreceives <;> exact hd
  | dropReceiver => exact absurd ha id

theorem place_step (ha : a.Keeps) (hne : a ≠ .send t) : (x.step methods r a).place t = x.place t := by
  cases a with
  | send t' => exact send_place_of_ne fun he => hne (he ▸ rfl)
  | call =>
    simp only [step]
    cases x.recv <;> cases x.dropped <;> rfl
  | receive =>
    have hreceives := receive_receives r x
    show (x.receive r).place t = x.place t
    generalize x.receive r = y at hreceives
    cases hreceives <;> rfl
  | dropReceiver => exact absurd ha id

/-- The first step of a thread that ends a message. -/
theorem Stands.marks (h : x.Stands r .writing q ds) (hm : methods t = .terminateMessage) (ht : x.place t = .begin) :
    (x.send methods r t).interface.locks r.completeLock = .complete := by
  have hr : ((methods t).advance r (x.place t)).run x.interface =
      .ok .marked (x.interface.markComplete r.completeLock) := by
    rw [hm, ht]
    exact SendMethod.advance_terminateMessage r h.message (fun hl => h.lock.1 hl rfl) rfl
  rw [send_ok hr]
  exact Function.update_self ..

theorem Ending.step (h : Ending methods r t x) (hm : methods t = .terminateMessage) (ha : a.Keeps) :
    Ending methods r t (x.step methods r a) := by
  obtain ⟨g, q, ds, hstands⟩ := h.heard.stands
  refine ⟨h.heard.step a, held_step h.held ha, ?_⟩
  by_cases hl : x.interface.locks r.completeLock = .complete
  · exact .inr (complete_step ⟨g, q, ds, hstands⟩ h.held ha hl)
  have ht := h.begun.resolve_right hl
  by_cases hne : a = .send t
  · obtain rfl : g = .writing := by
      by_contra hg
      exact hl (hstands.lock.2 hg)
    subst hne
    exact .inr (hstands.marks hm ht)
  · exact .inl ((place_step ha hne).trans ht)

/-! ### From one stage to the next -/

theorem complete_leadsTo (hm : methods t = .terminateMessage) : LeadsTo (Polling.step methods r) Keeps Keeps
    (Ending methods r t) fun x => Ending methods r t x ∧ x.interface.locks r.completeLock = .complete := by
  intro u x hx
  by_cases hl : x.interface.locks r.completeLock = .complete
  · exact ⟨0, hx, hl⟩
  have hmove : LeadsTo (Polling.step methods r) Keeps Keeps
      (fun x => Ending methods r t x ∧ x.interface.locks r.completeLock ≠ .complete)
      fun x => Ending methods r t x ∧ x.interface.locks r.completeLock = .complete := by
    refine .of_move (.send t) trivial ?_
    rintro x a ⟨h, hl⟩ ha
    by_cases hl' : (x.step methods r a).interface.locks r.completeLock = .complete
    · exact .inl ⟨h.step hm ha, hl'⟩
    · refine .inr ⟨⟨h.step hm ha, hl'⟩, ?_⟩
      rintro rfl
      obtain ⟨g, q, ds, hstands⟩ := h.heard.stands
      obtain rfl : g = .writing := by
        by_contra hg
        exact hl (hstands.lock.2 hg)
      exact hl' (hstands.marks hm (h.begun.resolve_right hl))
  exact hmove u x ⟨hx, hl⟩

/-- The thread that has marked the lock hands the last chunk over. -/
theorem marked_leadsTo (hm : methods t = .terminateMessage) (t' : ι) : LeadsTo (Polling.step methods r) Keeps Keeps
    (fun x => Ending methods r t x ∧ At r (.marked t') x) fun x => Ending methods r t x ∧ At r (.handedOver t') x := by
  refine .of_move (.send t') trivial ?_
  rintro x a ⟨h, hat⟩ ha
  rcases hat.step methods h.held ha with ⟨hat', hne⟩ | ⟨t'', g', q, q', rfl, hsends, hg', hat'⟩
  · exact .inr ⟨⟨h.step hm ha, hat'⟩, hne t'⟩
  · cases hsends with
    | stays _ _ hne => exact .inr ⟨⟨h.step hm ha, hat'⟩, by rintro ⟨⟩; exact hne rfl⟩
    | handsOver => exact .inl ⟨h.step hm ha, hat'⟩
    | stores => exact absurd rfl hg'

/-- The thread that has handed the last chunk over deletes the message. -/
theorem handedOver_leadsTo (hm : methods t = .terminateMessage) (t' : ι) : LeadsTo (Polling.step methods r) Keeps Keeps
    (fun x => Ending methods r t x ∧ At r (.handedOver t') x) fun x => Ending methods r t x ∧ At r .deleted x := by
  refine .of_move (.send t') trivial ?_
  rintro x a ⟨h, hat⟩ ha
  rcases hat.step methods h.held ha with ⟨hat', hne⟩ | ⟨t'', g', q, q', rfl, hsends, hg', hat'⟩
  · exact .inr ⟨⟨h.step hm ha, hat'⟩, hne t'⟩
  · cases hsends with
    | stays _ _ _ hne => exact .inr ⟨⟨h.step hm ha, hat'⟩, by rintro ⟨⟩; exact hne rfl⟩
    | deletes => exact .inl ⟨h.step hm ha, hat'⟩

theorem deleted_leadsTo (hm : methods t = .terminateMessage) : LeadsTo (Polling.step methods r) Keeps Keeps
    (Ending methods r t) fun x => Ending methods r t x ∧ At r .deleted x := by
  refine (complete_leadsTo hm).trans ?_
  rintro u x ⟨h, hl⟩
  obtain ⟨g, q, ds, hstands⟩ := h.heard.stands
  cases g with
  | writing => exact absurd rfl (hstands.lock.1 hl)
  | marked t' => exact ((marked_leadsTo hm t').trans (handedOver_leadsTo hm t')) u x ⟨h, q, ds, hstands⟩
  | handedOver t' => exact handedOver_leadsTo hm t' u x ⟨h, q, ds, hstands⟩
  | deleted => exact ⟨0, h, q, ds, hstands⟩
  | stored => exact absurd rfl (hstands.kept h.held).2

/-! ### The chunks that are left -/

/-- The steps of the holder of the receiver until the channel is empty, and four for each chunk in it. -/
def left (r : ChunkReceiver w) (x : Polling ι w) : Nat := 4 * (x.interface.chans r.rx).queue.length + x.recv.rank

/-- The holder of the receiver goes on by a new call, or with the one it is in. -/
def next (n : Nat) : PollingAction ι := if n % 4 = 2 then .call else .receive

omit [DecidableEq ι] in
theorem left_mod (r : ChunkReceiver w) (x : Polling ι w) : x.left r % 4 = 2 ↔ x.recv = .idle := by
  unfold left
  cases x.recv <;> simp [RecvPlace.rank]

omit [DecidableEq ι] in
theorem left_answer (r : ChunkReceiver w) (x : Polling ι w) (a : Received w) :
    (x.answer (x.interface.takeChunk r.rx).2 a).left r = 4 * ((x.interface.chans r.rx).queue.length - 1) + 2 := by
  have hqueue : ((x.answer (x.interface.takeChunk r.rx).2 a).interface.chans r.rx).queue =
      (x.interface.chans r.rx).queue.tail := by
    simp [answer, takeChunk, updateChan]
  rw [left, hqueue, List.length_tail]
  rfl

omit [DecidableEq ι] in
/-- A step of a call of `recv_raw` on a message that is deleted. -/
theorem Stands.receive_closer (h : x.Stands r .deleted q ds) (hrecv : x.recv ≠ .idle) :
    .ok none ∈ (x.receive r).returns ∨ (x.receive r).left r < x.left r := by
  have hl : x.interface.locks r.completeLock = .complete := h.lock.2 nofun
  have hsender : (x.interface.chans r.rx).senderAlive = false := by rw [h.chan]; rfl
  have hreceives := receive_receives r x
  generalize x.receive r = y at hreceives
  cases hreceives with
  | idles hidle => exact absurd hidle hrecv
  | poisoned _ hp => exact absurd (hl.symm.trans hp) nofun
  | waits hbegin => exact .inr (by simp only [left, hbegin, RecvPlace.rank]; omega)
  | takes c q' hplace hq =>
    refine .inr ?_
    rw [left_answer]
    simp only [left, hq, List.length_cons]
    omega
  | fails hplace hq =>
    refine .inr ?_
    rw [left_answer]
    simp only [left, hplace, hq, List.length_nil, RecvPlace.rank]
    omega
  | timesOut _ _ hs => exact absurd (hsender.symm.trans hs) (by decide)
  | ends => exact .inl (List.mem_append_right _ (List.mem_singleton.2 rfl))

/-- The end is received, or the next step is closer to it. -/
theorem Ending.closer (h : Ending methods r t x) (hat : At r .deleted x) (ha : a.Keeps) :
    .ok none ∈ (x.step methods r a).returns ∨
      (x.step methods r a).left r ≤ x.left r ∧ (a = next (x.left r) → (x.step methods r a).left r < x.left r) := by
  obtain ⟨q, ds, hstands⟩ := hat
  cases a with
  | send t' =>
    obtain ⟨g', q', ds', hsent⟩ := hstands.send methods t'
    have hq : q' = q := by
      cases hsent.sends with
      | stays => rfl
    have hleft : (x.send methods r t').left r = x.left r := by
      rw [left, left, hsent.stands.chan, hstands.chan, send_recv, hq]
    refine .inr ⟨hleft.le, fun he => ?_⟩
    unfold next at he
    split at he <;> cases he
  | call =>
    rw [step_call methods r h.held]
    by_cases hidle : x.recv = .idle
    · have hlt : ({ x with recv := .begin } : Polling ι w).left r < x.left r := by
        simp only [left, hidle, RecvPlace.rank]
        omega
      rw [if_pos hidle]
      exact .inr ⟨hlt.le, fun _ => hlt⟩
    · rw [if_neg hidle]
      refine .inr ⟨le_rfl, fun he => ?_⟩
      rw [next, if_neg fun hmod => hidle ((left_mod r x).1 hmod)] at he
      cases he
  | receive =>
    by_cases hidle : x.recv = .idle
    · have hsame : x.receive r = x := by simp only [receive, hidle]
      refine .inr ⟨(congrArg (left r) hsame).le, fun he => ?_⟩
      rw [next, if_pos ((left_mod r x).2 hidle)] at he
      cases he
    · exact (hstands.receive_closer hidle).imp_right fun hlt => ⟨hlt.le, fun _ => hlt⟩
  | dropReceiver => exact absurd ha id

theorem end_leadsTo (hm : methods t = .terminateMessage) : LeadsTo (Polling.step methods r) Keeps Keeps
    (fun x => Ending methods r t x ∧ At r .deleted x) fun x => Heard methods r x ∧ .ok none ∈ x.returns := by
  have hrank : LeadsTo (Polling.step methods r) Keeps Keeps
      (fun x => ∃ n, (Ending methods r t x ∧ At r .deleted x) ∧ x.left r = n)
      fun x => Heard methods r x ∧ .ok none ∈ x.returns := by
    refine .of_rank next (fun n => ?_) ?_
    · unfold next
      split <;> trivial
    · rintro n x a ⟨⟨h, hat⟩, rfl⟩ ha
      rcases h.closer hat ha with hend | ⟨hle, hlt⟩
      · exact .inl ⟨h.heard.step a, hend⟩
      · refine .inr ⟨_, hle, ⟨⟨h.step hm ha, ?_⟩, rfl⟩, hlt⟩
        rcases hat.step methods h.held ha with ⟨hat', -⟩ | ⟨t', g', q, q', -, hsends, -, hat'⟩
        · exact hat'
        · cases hsends with
          | stays => exact hat'
  exact hrank.mono (fun x hx => ⟨_, hx, rfl⟩) fun _ h => h

variable {i : Interface w} {id : IpfiInteger w} {m : MessageBuffer}

/-- If a thread is to end the message and every thread goes on, somebody who keeps the receiver and calls `recv_raw`
again and again receives the end, after all the chunks. -/
theorem end_received (hm : i.messages.lookup id = some m) (hempty : m.chunks = [[]]) (hs : m.sender = none)
    (hl : i.locks m.completeLock = .incomplete) (ht : methods t = .terminateMessage) :
    ∃ r i', (getChunkStream id).run i = .ok r i' ∧ ∀ u : Schedule (Keeps : PollingAction ι → Prop) Keeps, ∃ n,
      .ok none ∈ (u.run (Polling.step methods r) (start i') n).returns ∧
      Delivers methods r (u.run (Polling.step methods r) (start i') n) := by
  obtain ⟨r, i', hr, hstart⟩ := start_heard methods hm hempty hs hl
  refine ⟨r, i', hr, fun u => ?_⟩
  obtain ⟨n, hheard, hend⟩ := ((deleted_leadsTo ht).trans (end_leadsTo ht)) u _ ⟨hstart, rfl, .inl rfl⟩
  exact ⟨n, hend, hheard.delivers⟩

/-- A writer, a thread that ends the message and the holder of the receiver in turn. -/
private def inTurn : Schedule (Keeps : PollingAction Bool → Prop) Keeps where
  move n :=
    match n % 4 with
    | 0 => .call
    | 1 => .receive
    | 2 => .send false
    | _ => .send true
  ok n := by split <;> trivial
  fair a ha n := by
    have hturn : ∀ k < 4, n ≤ 4 * n + k ∧ (4 * n + k) % 4 = k := fun k hk => by omega
    cases a with
    | call => exact ⟨4 * n + 0, (hturn 0 (by decide)).1, by simp only [(hturn 0 (by decide)).2]⟩
    | receive => exact ⟨4 * n + 1, (hturn 1 (by decide)).1, by simp only [(hturn 1 (by decide)).2]⟩
    | send t =>
      cases t with
      | false => exact ⟨4 * n + 2, (hturn 2 (by decide)).1, by simp only [(hturn 2 (by decide)).2]⟩
      | true => exact ⟨4 * n + 3, (hturn 3 (by decide)).1, by simp only [(hturn 3 (by decide)).2]⟩
    | dropReceiver => exact False.elim ha

private def inTurnMethods (t : Bool) : SendMethod := if t then .terminateMessage else .sendMany [93]

theorem end_received_inTurn :
    ∃ r i', (getChunkStream (Interface.push .new).1).run (Interface.push (w := .u64) .new).2 = .ok r i' ∧
      ∃ n, .ok none ∈ (inTurn.run (Polling.step inTurnMethods r) (start i') n).returns ∧
        Delivers inTurnMethods r (inTurn.run (Polling.step inTurnMethods r) (start i') n) := by
  have hm := (lookup_push (Interface.new : Interface .u64) (Interface.push .new).1).trans (if_pos rfl)
  have hends : inTurnMethods true = .terminateMessage := rfl
  obtain ⟨r, i', hr, hall⟩ := end_received hm rfl rfl rfl hends
  exact ⟨r, i', hr, hall inTurn⟩

end Polling

end Ipfi
