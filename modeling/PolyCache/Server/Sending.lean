import PolyCache.Server.Output

/-!
# Partial sends

The calls of `queue_response` and `try_send` on one open connection, in single rounds of the loop of
`try_send`: a round pops a chunk, or calls `send` with the rest of one part. Between any two rounds
nothing of the responses is lost, repeated or out of order. The functions of the event loop are
runs of these rounds.
-/

namespace PolyCache

namespace Server

/-- The chunk that `queue_response` makes of a response. -/
def Response.chunk (r : Response) : OutChunk where
  head := r.complete.head
  blob := r.complete.blob
  tail := r.complete.tail

namespace OutChunk

variable {chunk : OutChunk}

/-- Each counter is within its part. -/
structure Counted (chunk : OutChunk) : Prop where
  head : chunk.headSent ≤ chunk.head.length
  blob : chunk.blobSent ≤ (chunk.blob.getD []).length
  tail : chunk.tailSent ≤ chunk.tail.length

theorem counted_chunk (r : Response) : r.chunk.Counted :=
  ⟨Nat.zero_le _, Nat.zero_le _, Nat.zero_le _⟩

/-- What is given to `send` is not empty, whichever parts of the chunk are. -/
theorem offered_ne_nil (h : chunk.part ≠ .done) : chunk.offered ≠ [] := by
  rw [offered, Ne, ← List.length_eq_zero_iff]
  unfold part at h ⊢
  split_ifs with hhead hblob htail <;> simp_all <;> omega

theorem Counted.advance (h : chunk.Counted) {n : Nat} (hn : n ≤ chunk.offered.length) :
    (chunk.advance n).Counted := by
  obtain ⟨hhead, hblob, htail⟩ := h
  cases hpart : chunk.part with
  | head | blob | tail =>
    simp only [offered, hpart, List.length_drop] at hn
    simp only [OutChunk.advance, hpart]
    constructor <;> dsimp only <;> omega
  | done =>
    simp only [OutChunk.advance, hpart]
    exact ⟨hhead, hblob, htail⟩

theorem length_rest (chunk : OutChunk) {n : Nat} (hn : n ≤ chunk.offered.length) :
    (chunk.advance n).rest.length + n = chunk.rest.length := by
  rw [← chunk.take_offered n, List.length_append, List.length_take, Nat.min_eq_left hn,
    Nat.add_comm]

end OutChunk

/-! ## Rounds -/

/-- The outbox of an open connection. -/
structure Sender where
  queue : List OutChunk
  /-- the loop of `try_send` is running -/
  looping : Bool
  /-- the bytes that `send` has taken -/
  written : Bytes

inductive Act where
  | queue (response : Response)
  | enter
  | pop
  | send (offered : Bytes) (result : SendResult)
  | leave

/-- The responses that have been queued, in order. The history has the newest act first. -/
def due : List Act → Bytes
  | [] => []
  | .queue response :: h => due h ++ response.frame
  | _ :: h => due h

namespace Sender

/-- `queue` is `queue_response` up to its `try_send`: one chunk more than fits would close the
connection. `enter` is a `try_send` from the event loop. -/
inductive Step : Sender → Act → Sender → Prop where
  | queue {queue : List OutChunk} {written : Bytes} (response : Response)
      (room : queue.length < kMaxQueuedChunks) :
      Step ⟨queue, false, written⟩ (.queue response) ⟨queue ++ [response.chunk], true, written⟩
  | enter {queue : List OutChunk} {written : Bytes} :
      Step ⟨queue, false, written⟩ .enter ⟨queue, true, written⟩
  | pop {chunk : OutChunk} {queue : List OutChunk} {written : Bytes} (done : chunk.part = .done) :
      Step ⟨chunk :: queue, true, written⟩ .pop ⟨queue, true, written⟩
  | sent {chunk : OutChunk} {queue : List OutChunk} {written : Bytes} {n : Nat}
      (left : chunk.part ≠ .done) (pos : 0 < n) (le : n ≤ chunk.offered.length) :
      Step ⟨chunk :: queue, true, written⟩ (.send chunk.offered (.sent n))
        ⟨chunk.advance n :: queue, true, written ++ chunk.offered.take n⟩
  | again {chunk : OutChunk} {queue : List OutChunk} {written : Bytes}
      (left : chunk.part ≠ .done) :
      Step ⟨chunk :: queue, true, written⟩ (.send chunk.offered .again)
        ⟨chunk :: queue, false, written⟩
  | intr {chunk : OutChunk} {queue : List OutChunk} {written : Bytes}
      (left : chunk.part ≠ .done) :
      Step ⟨chunk :: queue, true, written⟩ (.send chunk.offered .intr)
        ⟨chunk :: queue, true, written⟩
  | leave {written : Bytes} : Step ⟨[], true, written⟩ .leave ⟨[], false, written⟩

/-- The runs from an accepted connection. -/
def system : Transition.System Sender Act where
  init s := s = ⟨[], false, []⟩
  step := Step

variable {h : List Act} {s s' : Sender} {act : Act}

/-- What holds between two rounds. -/
structure Kept (h : List Act) (s : Sender) : Prop where
  inOrder : s.written ++ unsent s.queue = due h
  counted : ∀ chunk ∈ s.queue, chunk.Counted
  offered : ∀ bytes result, Act.send bytes result ∈ h → bytes ≠ []

theorem Kept.step (hs : s.Kept h) (hstep : Step s act s') : s'.Kept (act :: h) := by
  obtain ⟨horder, hcounted, hoffered⟩ := hs
  have hquiet : (∀ bytes result, act ≠ .send bytes result) →
      ∀ bytes result, Act.send bytes result ∈ act :: h → bytes ≠ [] := by
    intro hne bytes result hmem
    obtain heq | hmem := List.mem_cons.mp hmem
    · exact absurd heq.symm (hne bytes result)
    · exact hoffered bytes result hmem
  have hloud : ∀ chunk : OutChunk, chunk.part ≠ .done → ∀ result, act = .send chunk.offered result →
      ∀ bytes result, Act.send bytes result ∈ act :: h → bytes ≠ [] := by
    rintro chunk hleft result rfl bytes result' hmem
    obtain heq | hmem := List.mem_cons.mp hmem
    · cases heq
      exact OutChunk.offered_ne_nil hleft
    · exact hoffered bytes result' hmem
  cases hstep with
  | queue response =>
    refine ⟨?_, fun chunk hmem => ?_, hquiet nofun⟩
    · rw [unsent_append, ← List.append_assoc, horder, unsent_cons, unsent_nil, List.append_nil]
      rfl
    · obtain hmem | hmem := List.mem_append.mp hmem
      · exact hcounted chunk hmem
      · cases List.mem_singleton.mp hmem
        exact OutChunk.counted_chunk response
  | enter => exact ⟨horder, hcounted, hquiet nofun⟩
  | @pop chunk queue written done =>
    refine ⟨?_, fun c hmem => hcounted c (List.mem_cons_of_mem _ hmem), hquiet nofun⟩
    rw [unsent_cons, OutChunk.rest_of_done done] at horder
    exact horder
  | @sent chunk queue written n left pos le =>
    refine ⟨?_, fun c hmem => ?_, hloud chunk left _ rfl⟩
    · rw [unsent_cons, ← chunk.take_offered n, List.append_assoc, ← List.append_assoc] at horder
      exact horder
    · obtain rfl | hmem := List.mem_cons.mp hmem
      · exact (hcounted chunk (List.mem_cons_self ..)).advance le
      · exact hcounted c (List.mem_cons_of_mem _ hmem)
  | @again chunk queue written left => exact ⟨horder, hcounted, hloud chunk left _ rfl⟩
  | @intr chunk queue written left => exact ⟨horder, hcounted, hloud chunk left _ rfl⟩
  | leave => exact ⟨horder, hcounted, hquiet nofun⟩

theorem kept_of_reaches (hr : system.Reaches h s) : s.Kept h := by
  refine hr.invariant (P := fun h s => s.Kept h) (fun s hs => ?_)
    fun _ _ _ _ _ hs hstep => hs.step hstep
  obtain rfl : s = ⟨[], false, []⟩ := hs
  exact ⟨rfl, nofun, nofun⟩

/-! ## The end of the loop -/

/-- What `send` may return when it is given so many bytes. -/
def Permitted (length : Nat) : SendResult → Prop
  | .sent n => 0 < n ∧ n ≤ length
  | .again | .intr => True
  | .failed => False

/-- A round of the loop is always possible, whatever `send` returns. -/
def Proceeds (s : Sender) : Prop :=
  (∃ s', Step s .leave s') ∨ (∃ s', Step s .pop s') ∨
    ∃ offered, ∀ result, Permitted offered.length result → ∃ s', Step s (.send offered result) s'

theorem proceeds (hloop : s.looping = true) : s.Proceeds := by
  obtain ⟨queue, looping, written⟩ := s
  obtain rfl : looping = true := hloop
  cases queue with
  | nil => exact .inl ⟨_, .leave⟩
  | cons chunk queue =>
    by_cases hdone : chunk.part = .done
    · exact .inr (.inl ⟨_, .pop hdone⟩)
    · refine .inr (.inr ⟨chunk.offered, fun result hresult => ?_⟩)
      cases result with
      | sent n => exact ⟨_, .sent hdone hresult.1 hresult.2⟩
      | again => exact ⟨_, .again hdone⟩
      | intr => exact ⟨_, .intr hdone⟩
      | failed => exact hresult.elim

/-- What is left to do: a byte to send or a chunk to pop. -/
def left (s : Sender) : Nat := (unsent s.queue).length + s.queue.length

/-- A round that does not leave the loop gets on, unless it is interrupted. -/
theorem left_lt (hstep : Step s act s') (hloop : s.looping = true) (hloop' : s'.looping = true)
    (hintr : ∀ offered, act ≠ .send offered .intr) : s'.left < s.left := by
  cases hstep with
  | queue | enter => exact nomatch hloop
  | pop done =>
    simp only [left, unsent_cons, List.length_append, List.length_cons]
    omega
  | @sent chunk queue written n left pos le =>
    have hlength := chunk.length_rest le
    simp only [Sender.left, unsent_cons, List.length_append, List.length_cons]
    omega
  | again | leave => exact nomatch hloop'
  | intr => exact absurd rfl (hintr _)

/-- A loop that never ends is interrupted again and again. -/
theorem interrupted_of_endless {states : Nat → Sender} {acts : Nat → Act}
    (hloop : ∀ i, (states i).looping = true)
    (hstep : ∀ i, Step (states i) (acts i) (states (i + 1))) (n : Nat) :
    ∃ i, n ≤ i ∧ ∃ offered, acts i = .send offered .intr := by
  by_contra hnone
  have hlt : ∀ i, n ≤ i → (states (i + 1)).left < (states i).left := fun i hi =>
    left_lt (hstep i) (hloop i) (hloop (i + 1)) fun offered heq => hnone ⟨i, hi, offered, heq⟩
  -- the measure would fall for ever
  have hfall : ∀ k, (states (n + k)).left + k ≤ (states n).left := by
    intro k
    induction k with
    | zero => exact le_rfl
    | succ k ih =>
      have hnext : (states (n + (k + 1))).left < (states (n + k)).left :=
        hlt (n + k) (Nat.le_add_right n k)
      omega
  have hbound := hfall ((states n).left + 1)
  omega

/-- At every point of every run of `queue_response` and `try_send`, what `send` has taken and what
is left in the outbox are together the responses in order, no counter is past the end of its part
and `send` has been given no empty buffer. A loop goes on until it is left, and it is left unless
`send` goes on returning `EINTR`. -/
theorem sends_in_order (hr : system.Reaches h s) : s.Kept h ∧ (s.looping = true → s.Proceeds ∧
    ∀ (states : Nat → Sender) (acts : Nat → Act), states 0 = s →
      (∀ i, (states i).looping = true ∧ Step (states i) (acts i) (states (i + 1))) →
      ∀ n, ∃ i, n ≤ i ∧ ∃ offered, acts i = .send offered .intr) := by
  refine ⟨kept_of_reaches hr, fun hloop => ⟨proceeds hloop, fun states acts _ hendless => ?_⟩⟩
  exact interrupted_of_endless (fun i => (hendless i).1) fun i => (hendless i).2

/-- A response with an empty blob, two bytes of whose head have gone out. -/
theorem sends_empty_value :
    let chunk := (bulk []).chunk
    let s : Sender := ⟨[chunk.advance 2], true, chunk.offered.take 2⟩
    s.Kept [.send chunk.offered (.sent 2), .queue (bulk [])] ∧ s.Proceeds :=
  have hqueued := (Transition.System.Reaches.start (S := system) rfl).next
    (.queue (bulk []) (by decide))
  have hsent := sends_in_order (hqueued.next (.sent (by decide) (by decide) (by decide)))
  ⟨hsent.1, (hsent.2 rfl).1⟩

/-! ## The functions of the event loop -/

theorem reaches_dropWhile {queue : List OutChunk} {written : Bytes}
    (hr : system.Reaches h ⟨queue, true, written⟩) :
    ∃ h', system.Reaches h' ⟨queue.dropWhile fun c => c.part = .done, true, written⟩ := by
  induction queue generalizing h with
  | nil => exact ⟨h, hr⟩
  | cons chunk queue ih =>
    by_cases hdone : chunk.part = .done
    · rw [List.dropWhile_cons_of_pos (by simpa using hdone)]
      exact ih (hr.next (.pop hdone))
    · rw [List.dropWhile_cons_of_neg (by simpa using hdone)]
      exact ⟨h, hr⟩

theorem part_of_dropWhile {queue queue' : List OutChunk} {chunk : OutChunk}
    (h : (queue.dropWhile fun c => c.part = .done) = chunk :: queue') : chunk.part ≠ .done := by
  have hhead := List.head?_dropWhile_not (fun c : OutChunk => c.part = .done) queue
  rw [h] at hhead
  simpa using hhead

/-- While `send` does not fail, the loop is a run of its rounds. -/
theorem reaches_sendLoop {sends : List SendResult} (queue : List OutChunk) (written : Bytes)
    (hsends : ∀ r ∈ sends, r ≠ .failed ∧ r ≠ .sent 0) :
    (sendLoop sends queue written).failed = false ∧
      ∀ h, system.Reaches h ⟨queue, true, written⟩ → ∃ h', system.Reaches h'
        ⟨(sendLoop sends queue written).queue, false, (sendLoop sends queue written).written⟩ := by
  have hblock : ∀ {h : List Act} {chunk : OutChunk} {queue : List OutChunk} {written : Bytes},
      system.Reaches h ⟨chunk :: queue, true, written⟩ → chunk.part ≠ .done →
      ∃ h', system.Reaches h' ⟨chunk :: queue, false, written⟩ :=
    fun hr hleft => ⟨_, hr.next (.again hleft)⟩
  fun_induction sendLoop sends queue written with
  | case1 queue written =>
    refine ⟨rfl, fun h hr => ?_⟩
    obtain ⟨h', hr'⟩ := reaches_dropWhile hr
    cases hqueue : queue.dropWhile fun c => c.part = .done with
    | nil =>
      rw [hqueue] at hr'
      exact ⟨_, hr'.next .leave⟩
    | cons chunk queue' =>
      rw [hqueue] at hr'
      exact hblock hr' (part_of_dropWhile hqueue)
  | case2 result sends queue written hqueue =>
    refine ⟨rfl, fun h hr => ?_⟩
    obtain ⟨h', hr'⟩ := reaches_dropWhile hr
    rw [hqueue] at hr'
    exact ⟨_, hr'.next .leave⟩
  | case3 sends queue written chunk queue' hqueue =>
    exact absurd rfl (hsends _ (List.mem_cons_self ..)).2
  | case4 sends queue written chunk queue' hqueue =>
    exact absurd rfl (hsends _ (List.mem_cons_self ..)).1
  | case5 sends queue written chunk queue' hqueue n hn sent ih =>
    obtain ⟨hfailed, hloop⟩ := ih fun r hmem => hsends r (List.mem_cons_of_mem _ hmem)
    refine ⟨hfailed, fun h hr => ?_⟩
    obtain ⟨h', hr'⟩ := reaches_dropWhile hr
    rw [hqueue] at hr'
    have hleft := part_of_dropWhile hqueue
    have hpos : 0 < sent := by
      have hlength := List.length_pos_iff.mpr (OutChunk.offered_ne_nil hleft)
      have hne : n ≠ 0 := fun hzero => hn hzero
      omega
    exact hloop _ (hr'.next (.sent hleft hpos (Nat.min_le_right _ _)))
  | case6 sends queue written chunk queue' hqueue =>
    refine ⟨rfl, fun h hr => ?_⟩
    obtain ⟨h', hr'⟩ := reaches_dropWhile hr
    rw [hqueue] at hr'
    exact hblock hr' (part_of_dropWhile hqueue)
  | case7 sends queue written chunk queue' hqueue ih =>
    obtain ⟨hfailed, hloop⟩ := ih fun r hmem => hsends r (List.mem_cons_of_mem _ hmem)
    refine ⟨hfailed, fun h hr => ?_⟩
    obtain ⟨h', hr'⟩ := reaches_dropWhile hr
    rw [hqueue] at hr'
    exact hloop _ (hr'.next (.intr (part_of_dropWhile hqueue)))

end Sender

open Sender

/-- The outbox between two calls. -/
def Client.sender (c : Client) : Sender := ⟨c.outbox.getD [], false, c.written⟩

variable {h : List Act} {c : Client} {sends : List SendResult}

theorem sender_updateWatch (c : Client) : (updateWatch c).sender = c.sender := by
  rw [updateWatch]
  split_ifs <;> rfl

/-- `try_send` from the start of its loop. -/
theorem reaches_trySend_loop {queue : List OutChunk} (hqueue : c.outbox = some queue)
    (hr : system.Reaches h ⟨queue, true, c.written⟩)
    (hsends : ∀ r ∈ sends, r ≠ .failed ∧ r ≠ .sent 0) :
    ∃ h', system.Reaches h' (trySend c sends).1.sender ∧ due h' = due h := by
  obtain ⟨hfailed, hloop⟩ := reaches_sendLoop queue c.written hsends
  obtain ⟨h', hr'⟩ := hloop h hr
  have hget : ∀ queue : List OutChunk,
      (if queue = [] then none else some queue).getD [] = queue := by
    intro queue
    split <;> simp_all
  have hend : (trySend c sends).1.sender = ⟨(sendLoop sends queue c.written).queue, false,
      (sendLoop sends queue c.written).written⟩ := by
    simp only [trySend, hqueue, hfailed, Bool.false_eq_true, if_false]
    rw [sender_updateWatch, Client.sender, hget]
  rw [hend]
  refine ⟨h', hr', ?_⟩
  rw [← (kept_of_reaches hr').inOrder, ← (kept_of_reaches hr).inOrder]
  exact sendLoop_written sends queue c.written

theorem reaches_trySend (hr : system.Reaches h c.sender)
    (hsends : ∀ r ∈ sends, r ≠ .failed ∧ r ≠ .sent 0) :
    ∃ h', system.Reaches h' (trySend c sends).1.sender ∧ due h' = due h := by
  cases hqueue : c.outbox with
  | none =>
    rw [trySend, hqueue]
    exact ⟨h, hr, rfl⟩
  | some queue =>
    rw [Client.sender, hqueue] at hr
    obtain ⟨h', hr', hdue⟩ := reaches_trySend_loop hqueue (hr.next .enter) hsends
    exact ⟨h', hr', hdue⟩

/-- A response goes through the outbox of a connection that has room for it. -/
theorem reaches_queueResponse (hr : system.Reaches h c.sender) (response : Response)
    (hroom : (c.outbox.getD []).length < kMaxQueuedChunks)
    (hsends : ∀ r ∈ sends, r ≠ .failed ∧ r ≠ .sent 0) :
    ∃ h', system.Reaches h' (queueResponse c response sends).1.sender ∧
      due h' = due h ++ response.frame := by
  have hlength : ¬ (c.outbox.getD [] ++ [response.chunk]).length > kMaxQueuedChunks := by
    rw [List.length_append, List.length_singleton]
    omega
  have hqueued := hr.next (.queue response hroom)
  have hsend := reaches_trySend_loop (c := { c with
      outbox := some (c.outbox.getD [] ++ [response.chunk])
      replies := c.replies ++ [response.complete.bytes] }) rfl hqueued hsends
  have hcall : queueResponse c response sends = trySend { c with
      outbox := some (c.outbox.getD [] ++ [response.chunk])
      replies := c.replies ++ [response.complete.bytes] } sends := if_neg hlength
  rw [hcall]
  exact hsend

end Server

end PolyCache
