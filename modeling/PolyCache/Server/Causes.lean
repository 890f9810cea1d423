import PolyCache.Server.Growth
import PolyCache.Server.Sending

/-!
# Why a client is dropped

`close_client` is called in many places. Each call has its cause outside the server, in the client
or its connection: the end of the stream, a system call that fails, a request that is refused, or
replies that wait in the outbox because the client does not read them. To say how many replies wait,
the outbox is read reply by reply: its chunks are the last replies, and of those `send` has begun
the first at most.
-/

namespace PolyCache

open Protocol

namespace Server

/-! ## The replies in the outbox -/

namespace OutChunk

def text (c : OutChunk) : Bytes := c.head ++ c.blob.getD [] ++ c.tail

@[simp] theorem text_advance (c : OutChunk) (sent : Nat) : (c.advance sent).text = c.text := by
  unfold advance
  split <;> rfl

end OutChunk

/-- `sent` has been taken of the first chunk, and nothing of the others. -/
def Begun (sent : Bytes) : List OutChunk → Prop
  | [] => sent = []
  | chunk :: queue => chunk.text = sent ++ chunk.rest ∧ ∀ d ∈ queue, d.rest = d.text

/-- The replies that have not been written are the chunks of the queue. -/
def Lined (replies : List Bytes) (written : Bytes) (queue : List OutChunk) : Prop :=
  ∃ done sent, replies = done ++ queue.map OutChunk.text ∧ written = done.flatten ++ sent ∧
    Begun sent queue

variable {replies : List Bytes} {written : Bytes} {queue : List OutChunk} {chunk : OutChunk}

theorem Lined.pop (h : Lined replies written (chunk :: queue)) (hdone : chunk.part = .done) :
    Lined replies written queue := by
  obtain ⟨done, sent, hreplies, hwritten, htext, hfresh⟩ := h
  rw [OutChunk.rest_of_done hdone, List.append_nil] at htext
  refine ⟨done ++ [chunk.text], [], by simpa using hreplies, by simp [hwritten, htext], ?_⟩
  cases queue with
  | nil => rfl
  | cons d queue =>
    rw [List.forall_mem_cons] at hfresh
    exact ⟨hfresh.1.symm, hfresh.2⟩

theorem Lined.dropWhile (h : Lined replies written queue) :
    Lined replies written (queue.dropWhile fun c => c.part = .done) := by
  induction queue with
  | nil => exact h
  | cons chunk queue ih =>
    by_cases hdone : chunk.part = .done
    · simpa [hdone] using ih (h.pop hdone)
    · simpa [hdone] using h

theorem Lined.advance (h : Lined replies written (chunk :: queue)) (sent : Nat) :
    Lined replies (written ++ chunk.offered.take sent) (chunk.advance sent :: queue) := by
  obtain ⟨done, before, hreplies, hwritten, htext, hfresh⟩ := h
  refine ⟨done, before ++ chunk.offered.take sent, by simpa using hreplies, ?_, ?_, hfresh⟩
  · rw [hwritten, List.append_assoc]
  · rw [OutChunk.text_advance, htext, List.append_assoc, OutChunk.take_offered]

theorem lined_sendLoop (sends : List SendResult) (h : Lined replies written queue) :
    Lined replies (sendLoop sends queue written).written
      (sendLoop sends queue written).queue := by
  fun_induction sendLoop sends queue written with
  | case1 queue written => exact h.dropWhile
  | case2 result sends queue written hqueue => exact hqueue ▸ h.dropWhile
  | case3 sends queue written chunk queue' hqueue => exact hqueue ▸ h.dropWhile
  | case4 sends queue written chunk queue' hqueue => exact hqueue ▸ h.dropWhile
  | case5 sends queue written chunk queue' hqueue n hn sent ih =>
    have hdrop := h.dropWhile
    rw [hqueue] at hdrop
    exact ih (hdrop.advance sent)
  | case6 sends queue written chunk queue' hqueue => exact hqueue ▸ h.dropWhile
  | case7 sends queue written chunk queue' hqueue ih =>
    have hdrop := h.dropWhile
    rw [hqueue] at hdrop
    exact ih hdrop

/-- The loop leaves no chunk in front that is done. -/
theorem part_of_sendLoop {sends : List SendResult} {queue' : List OutChunk}
    (h : (sendLoop sends queue written).queue = chunk :: queue') : chunk.part ≠ .done := by
  fun_induction sendLoop sends queue written with
  | case1 queue written => exact Sender.part_of_dropWhile h
  | case2 result sends queue written hqueue => cases h
  | case3 sends queue written chunk queue' hqueue
  | case4 sends queue written chunk queue' hqueue
  | case6 sends queue written chunk queue' hqueue =>
    cases h
    exact Sender.part_of_dropWhile hqueue
  | case5 sends queue written chunk queue' hqueue n hn sent ih => exact ih h
  | case7 sends queue written chunk queue' hqueue ih => exact ih h

theorem OutChunk.rest_ne_nil (h : chunk.part ≠ .done) : chunk.rest ≠ [] := by
  rw [← take_offered chunk chunk.offered.length, List.take_length]
  simp [offered_ne_nil h]

/-- What the loop has not used of the script, and why it gave up. -/
theorem sendLoop_sends (sends : List SendResult) (queue : List OutChunk) (written : Bytes) :
    (sendLoop sends queue written).sends <:+ sends ∧
      ((sendLoop sends queue written).failed = true → .failed ∈ sends ∨ .sent 0 ∈ sends) := by
  fun_induction sendLoop sends queue written with
  | case1 | case2 => simp
  | case3 | case4 | case6 => simp
  | case5 sends queue written chunk queue' hqueue n hn sent ih
  | case7 sends queue written chunk queue' hqueue ih =>
    obtain ⟨hsuffix, hfailed⟩ := ih
    refine ⟨hsuffix.trans (List.suffix_cons _ _), fun h => ?_⟩
    exact (hfailed h).imp (List.mem_cons_of_mem _) (List.mem_cons_of_mem _)

/-- `send` takes a byte when there is one to send. -/
theorem lt_written_trySend {c : Client} (hqueue : c.outbox = some (chunk :: queue))
    (hpart : chunk.part ≠ .done) :
    c.written.length < (trySend c [.sent 1]).1.written.length := by
  have hdrop : (chunk :: queue).dropWhile (fun c => c.part = .done) = chunk :: queue := by
    simp [hpart]
  have hoffered : 0 < chunk.offered.length :=
    List.length_pos_iff.mpr (OutChunk.offered_ne_nil hpart)
  have hrun : (sendLoop [.sent 1] (chunk :: queue) c.written).written =
      c.written ++ chunk.offered.take (min 1 chunk.offered.length) := by
    simp only [sendLoop, hdrop]
  have hlength : (c.written ++ chunk.offered.take (min 1 chunk.offered.length)).length =
      c.written.length + 1 := by
    rw [List.length_append, List.length_take]
    omega
  unfold trySend
  simp only [hqueue]
  split_ifs <;> simp only [closeClient, written_updateWatch, hrun, hlength] <;> omega

/-! ## Causes -/

variable {cfg : Config} {alloc : Nat → Bool} {commands : Nat → Surroundings} {c c' : Client}
  {r r' : Run} {sends sends' : List SendResult} {p p' : Parser} {data more : Bytes}
  {broken : Prop}

structure Client.InLine (c : Client) : Prop where
  lined : Lined c.replies c.written (c.outbox.getD [])
  head : ∀ chunk ∈ (c.outbox.getD []).head?, chunk.part ≠ .done

/-- More than `n` replies have not been written to their ends. -/
def Waiting (replies : List Bytes) (written : Bytes) (n : Nat) : Prop :=
  ∃ before sent rest later, replies = before ++ (sent ++ rest) :: later ∧ n ≤ later.length ∧
    written = before.flatten ++ sent ∧ rest ≠ []

theorem Waiting.prefix_flatten {n : Nat} (h : Waiting replies written n) :
    written <+: replies.flatten := by
  obtain ⟨before, sent, rest, later, rfl, -, rfl, -⟩ := h
  exact ⟨rest ++ later.flatten, by simp⟩

theorem Waiting.lt_length {n : Nat} {done : List Bytes} (h : Waiting replies written n)
    (hdone : done <+: replies) (hwritten : done.flatten <+: written) :
    done.length + n < replies.length := by
  obtain ⟨before, sent, rest, later, rfl, hlater, rfl, hrest⟩ := h
  have hle : done.length ≤ before.length := by
    by_contra hlt
    have hmore : before ++ [sent ++ rest] <+: done := by
      refine List.prefix_of_prefix_length_le ⟨later, by simp⟩ hdone ?_
      rw [List.length_append, List.length_singleton]
      omega
    have hlength := (hmore.flatten.trans hwritten).length_le
    rw [List.flatten_append, List.flatten_singleton, List.length_append, List.length_append,
      List.length_append] at hlength
    exact hrest (List.eq_nil_of_length_eq_zero (by omega))
  rw [List.length_append, List.length_cons]
  omega

/-- Why a client is dropped that had the parser `p` before `data` came from it. -/
inductive Cause (broken : Prop) (alloc : Nat → Bool) (sends : List SendResult) (p : Parser)
    (data : Bytes) (c' : Client) : Prop where
  -- the end of the stream, an error of `recv` or one that `epoll` reports
  | broken (h : broken)
  | send (h : .failed ∈ sends ∨ .sent 0 ∈ sends)
  | memory (n : Nat) (h : alloc n = false)
  | refused (h : (p.feed (fun _ => true) data).parser.state = .failed)
  | waiting (h : Waiting c'.replies c'.written kMaxQueuedChunks)

/-- `c'` is what is left of a client when `data` has come from it. -/
def Drops (broken : Prop) (alloc : Nat → Bool) (sends : List SendResult) (p : Parser)
    (data : Bytes) (c' : Client) : Prop :=
  (c'.isOpen = true → c'.InLine) ∧ (c'.isOpen = false → Cause broken alloc sends p data c')

theorem Cause.mono {broken' : Prop} (h : Cause broken alloc sends p data c')
    (hbroken : broken → broken') (hsends : sends <:+ sends') :
    Cause broken' alloc sends' p data c' := by
  cases h with
  | broken h => exact .broken (hbroken h)
  | send h => exact .send (h.imp (hsends.subset ·) (hsends.subset ·))
  | memory n h => exact .memory n h
  | refused h => exact .refused h
  | waiting h => exact .waiting h

/-- The parser was `p` before, and has got from there to `p'`. -/
theorem Cause.before {whole : Bytes} (h : Cause broken alloc sends p' data c')
    (hfeed : (p'.feed (fun _ => true) data).parser.state = .failed →
      (p.feed (fun _ => true) whole).parser.state = .failed) :
    Cause broken alloc sends p whole c' := by
  cases h with
  | broken h => exact .broken h
  | send h => exact .send h
  | memory n h => exact .memory n h
  | refused h => exact .refused (hfeed h)
  | waiting h => exact .waiting h

theorem Client.Sound.live_of_isOpen (h : c.Sound) (hopen : c.isOpen = true) : c.Live := by
  cases h with
  | live h => exact h
  | ended h =>
    rw [h.isOpen] at hopen
    cases hopen

theorem drops_of_open (hline : c'.InLine) (hopen : c'.isOpen = true) :
    Drops broken alloc sends p data c' := by
  refine ⟨fun _ => hline, fun hclosed => ?_⟩
  rw [hopen] at hclosed
  cases hclosed

theorem Client.InLine.setParser (h : c.InLine) (p : Option Parser) :
    Client.InLine { c with parser := p } := ⟨h.lined, h.head⟩

theorem inLine_updateWatch (h : c.InLine) : (updateWatch c).InLine := by
  unfold updateWatch
  dsimp only
  split_ifs <;> exact ⟨h.lined, h.head⟩

theorem isOpen_updateWatch (c : Client) : (updateWatch c).isOpen = c.isOpen := by
  unfold updateWatch
  dsimp only
  split_ifs <;> rfl

theorem drops_trySend (sends : List SendResult)
    (h : Lined c.replies c.written (c.outbox.getD [])) :
    (trySend c sends).2 <:+ sends ∧
      ((trySend c sends).1.isOpen = true → (trySend c sends).1.InLine) ∧
      ((trySend c sends).1.isOpen = false →
        c.isOpen = false ∨ .failed ∈ sends ∨ .sent 0 ∈ sends) := by
  unfold trySend
  cases hqueue : c.outbox with
  | none =>
    rw [hqueue] at h
    exact ⟨List.suffix_rfl, fun _ => ⟨by simpa [hqueue] using h, by simp [hqueue]⟩, .inl⟩
  | some queue =>
    have hlined : Lined c.replies c.written queue := by simpa [hqueue] using h
    have hqueue' := lined_sendLoop sends hlined
    obtain ⟨hsuffix, hfailed⟩ := sendLoop_sends sends queue c.written
    have hhead : ∀ chunk ∈ (sendLoop sends queue c.written).queue.head?, chunk.part ≠ .done := by
      intro chunk hchunk
      obtain ⟨queue', hsplit⟩ := List.head?_eq_some_iff.mp hchunk
      exact part_of_sendLoop hsplit
    have hget : (if (sendLoop sends queue c.written).queue = [] then none
        else some (sendLoop sends queue c.written).queue).getD [] =
        (sendLoop sends queue c.written).queue := by
      split_ifs <;> simp_all
    have hline : Client.InLine { c with
        outbox := if (sendLoop sends queue c.written).queue = [] then none
          else some (sendLoop sends queue c.written).queue
        written := (sendLoop sends queue c.written).written } := by
      constructor
      · rw [hget]
        exact hqueue'
      · rw [hget]
        exact hhead
    refine ⟨hsuffix, ?_⟩
    dsimp only
    by_cases hgone : (sendLoop sends queue c.written).failed = true
    · rw [if_pos hgone]
      exact ⟨by simp [closeClient], fun _ => .inr (hfailed hgone)⟩
    · rw [if_neg hgone]
      refine ⟨fun _ => inLine_updateWatch hline, fun hclosed => ?_⟩
      rw [isOpen_updateWatch] at hclosed
      exact .inl hclosed

/-- A new reply is the last chunk. -/
theorem lined_append (h : Lined replies written queue) (response : Response) :
    Lined (replies ++ [response.bytes]) written
      (queue ++ [⟨response.head, 0, response.blob, 0, response.tail, 0⟩]) := by
  obtain ⟨done, sent, hreplies, hwritten, hbegun⟩ := h
  refine ⟨done, sent, ?_, hwritten, ?_⟩
  · simp [hreplies, OutChunk.text, Response.bytes]
  · cases queue with
    | nil =>
      obtain rfl : sent = [] := hbegun
      exact ⟨rfl, by simp⟩
    | cons chunk queue =>
      refine ⟨hbegun.1, fun d hd => ?_⟩
      obtain hd | hd := List.mem_append.mp hd
      · exact hbegun.2 d hd
      · rw [List.mem_singleton.mp hd]
        rfl

theorem Lined.waiting (h : Lined replies written queue)
    (hhead : ∀ chunk ∈ queue.head?, chunk.part ≠ .done) {n : Nat} (hlong : n < queue.length) :
    Waiting replies written n := by
  obtain ⟨done, sent, hreplies, hwritten, hbegun⟩ := h
  cases queue with
  | nil => simp at hlong
  | cons chunk queue =>
    refine ⟨done, sent, chunk.rest, queue.map OutChunk.text, ?_, ?_, hwritten, ?_⟩
    · rw [hreplies, List.map_cons, hbegun.1]
    · rw [List.length_map]
      simpa using hlong
    · exact OutChunk.rest_ne_nil (hhead chunk rfl)

theorem drops_queueResponse (h : c.InLine) (hopen : c.isOpen = true) (response : Response)
    (sends : List SendResult) :
    (queueResponse c response sends).2 <:+ sends ∧
      Drops broken alloc sends p data (queueResponse c response sends).1 := by
  have hlined : Lined (c.replies ++ [response.complete.bytes]) c.written (c.outbox.getD [] ++
      [⟨response.complete.head, 0, response.complete.blob, 0, response.complete.tail, 0⟩]) :=
    lined_append h.lined _
  simp only [queueResponse]
  split_ifs with hfull
  · -- the chunk in front was there before
    have hqueue : c.outbox.getD [] ≠ [] := by
      intro hnil
      simp [hnil, kMaxQueuedChunks] at hfull
    refine ⟨List.suffix_rfl, by simp [closeClient], fun _ => .waiting (hlined.waiting ?_ hfull)⟩
    rw [List.head?_append_of_ne_nil _ hqueue]
    exact h.head
  · obtain ⟨hsuffix, hline, hclosed⟩ := drops_trySend
      (c := { c with
        outbox := some (c.outbox.getD [] ++
          [⟨response.complete.head, 0, response.complete.blob, 0, response.complete.tail, 0⟩])
        replies := c.replies ++ [response.complete.bytes] }) sends hlined
    refine ⟨hsuffix, hline, fun h => .send ?_⟩
    obtain h | h := hclosed h
    · rw [hopen] at h
      cases h
    · exact h

theorem drops_runCommand (cfg : Config) (commands : Nat → Surroundings) (h : r.client.InLine)
    (hopen : r.client.isOpen = true) (cmd : Command) :
    (runCommand cfg commands r cmd).sends <:+ r.sends ∧
      Drops broken alloc r.sends p data (runCommand cfg commands r cmd).client := by
  simp only [runCommand]
  split_ifs
  · exact ⟨List.suffix_rfl, drops_of_open h hopen⟩
  · exact drops_queueResponse h hopen _ _

/-- A parser that fails has been refused memory, or fails whatever memory there is. -/
theorem cause_of_error {rest : Bytes} (hp : p.Resting) (hdata : data ≠ [])
    (h : p.consume alloc data = .error p' rest) : Cause broken alloc sends p data c' := by
  by_cases hmemory : ∃ n, alloc n = false
  · obtain ⟨n, hn⟩ := hmemory
    exact .memory n hn
  · obtain rfl : alloc = fun _ => true := by
      funext n
      by_contra hn
      exact hmemory ⟨n, by simpa using hn⟩
    have hsound := Parser.consume_sound (fun _ => true) data hp.buffered
    rw [h] at hsound
    refine .refused ?_
    rw [Parser.feed_eq hp hdata, h]
    exact hsound.1

theorem drops_takeBuffer (cfg : Config) (alloc : Nat → Bool) (commands : Nat → Surroundings)
    (rounds : Nat) (h : r.client.Live) (hline : r.client.InLine)
    (hparser : r.client.parser = some p) :
    (takeBuffer cfg alloc commands rounds r data).1.sends <:+ r.sends ∧
      Drops broken alloc r.sends p data
        (takeBuffer cfg alloc commands rounds r data).1.client := by
  induction rounds generalizing r data p with
  | zero => exact ⟨List.suffix_rfl, drops_of_open hline h.isOpen⟩
  | succ rounds ih =>
    rw [takeBuffer]
    split_ifs with hdata
    · exact ⟨List.suffix_rfl, drops_of_open hline h.isOpen⟩
    · have hresting := h.resting hparser
      simp only [hparser]
      cases hconsume : p.consume alloc data with
      | needMore p' rest =>
        exact ⟨List.suffix_rfl, drops_of_open (hline.setParser _) h.isOpen⟩
      | error p' rest =>
        refine ⟨List.tail_suffix _, by simp [closeClient], fun _ => ?_⟩
        exact cause_of_error hresting hdata hconsume
      | ready cmd p' rest =>
        obtain ⟨-, hrun⟩ := sound_of_ready cfg alloc commands h hparser hconsume
        have hkept : ∀ q, (runCommand cfg commands { r with client.parser := some p' }
            cmd).client.parser = some q → q = p' := fun q => parser_runCommand cmd rfl
        obtain ⟨hsuffix, hdrops⟩ : _ ∧ Drops broken alloc _ p data _ :=
          drops_runCommand (r := { r with client.parser := some p' }) cfg commands
            (hline.setParser _) h.isOpen cmd
        dsimp only
        generalize runCommand cfg commands { r with client.parser := some p' } cmd = r₁ at *
        split_ifs with hnone
        · exact ⟨hsuffix, hdrops⟩
        · obtain ⟨p₁, hp₁⟩ := Option.ne_none_iff_exists'.mp (by simpa using hnone)
          obtain rfl := hkept p₁ hp₁
          have hlive := hrun.live_of_hasParser (by simp [hp₁])
          obtain ⟨hsuffix', hline', hcause'⟩ := ih hlive (hdrops.1 hlive.isOpen) hp₁
          refine ⟨hsuffix'.trans hsuffix, hline', fun hclosed => ?_⟩
          refine ((hcause' hclosed).mono id hsuffix).before fun hfailed => ?_
          have hgranted := Parser.consume_granted (p := p) fun q rest herror => by
            rw [hconsume] at herror
            cases herror
          rw [Parser.feed_eq hresting hdata, hgranted, hconsume]
          exact hfailed

/-- `recv` does not fail, and does not come to the end of the stream. -/
def Readable (recvs : List RecvResult) : Prop := .failed ∉ recvs ∧ .data [] ∉ recvs

instance : DecidablePred Readable := fun recvs =>
  inferInstanceAs (Decidable (.failed ∉ recvs ∧ .data [] ∉ recvs))

/-- What is left of a client when some of `come` has come from it, and `recv` has returned. -/
def DropsOn (alloc : Nat → Bool) (recvs : List RecvResult) (come : Bytes)
    (sends : List SendResult) (p : Parser) (c' : Client) : Prop :=
  (c'.isOpen = true → c'.InLine) ∧ (c'.isOpen = false →
    ∃ data, data <+: come ∧ Cause (¬ Readable recvs) alloc sends p data c')

theorem dropsOn_of_open (recvs : List RecvResult) (come : Bytes) (hline : c'.InLine)
    (hopen : c'.isOpen = true) : DropsOn alloc recvs come sends p c' := by
  refine ⟨fun _ => hline, fun hclosed => ?_⟩
  rw [hopen] at hclosed
  cases hclosed

theorem drops_handleReadable (cfg : Config) (alloc : Nat → Bool) (commands : Nat → Surroundings)
    (recvs : List RecvResult) (h : r.client.Live) (hline : r.client.InLine)
    (hparser : r.client.parser = some p) :
    (handleReadable cfg alloc commands recvs r).sends <:+ r.sends ∧
      DropsOn alloc recvs (received recvs) r.sends p
        (handleReadable cfg alloc commands recvs r).client := by
  fun_induction handleReadable cfg alloc commands recvs r generalizing p with
  | case1 r => exact ⟨List.suffix_rfl, dropsOn_of_open _ _ hline h.isOpen⟩
  | case2 recvs r => exact ⟨List.suffix_rfl, dropsOn_of_open _ _ hline h.isOpen⟩
  | case3 r recvs ih =>
    obtain ⟨hsuffix, hline', hcause⟩ := ih h hline hparser
    refine ⟨hsuffix, hline', fun hclosed => ?_⟩
    obtain ⟨data, hdata, hcause⟩ := hcause hclosed
    exact ⟨data, hdata, hcause.mono (by simp [Readable]) List.suffix_rfl⟩
  | case4 recvs r | case5 recvs r =>
    refine ⟨List.suffix_rfl, by simp [closeClient], fun _ => ?_⟩
    exact ⟨[], List.nil_prefix, .broken (by simp [Readable])⟩
  | case6 c bytes recvs r hnone => simp [hparser] at hnone
  | case7 c bytes recvs r hnone r' hbuffer =>
    have hdrops : _ ∧ Drops (¬ Readable (.data (c :: bytes) :: recvs)) alloc _ p (c :: bytes) _ :=
      drops_takeBuffer cfg alloc commands ((c :: bytes).length + 1) h hline hparser
    rw [hbuffer] at hdrops
    obtain ⟨hsuffix, hline', hcause⟩ := hdrops
    refine ⟨hsuffix, hline', fun hclosed => ?_⟩
    exact ⟨_, List.prefix_append _ _, hcause hclosed⟩
  | case8 c bytes recvs r hnone r' hbuffer ih =>
    have hdrops : _ ∧ Drops (¬ Readable (.data (c :: bytes) :: recvs)) alloc _ p (c :: bytes) _ :=
      drops_takeBuffer cfg alloc commands ((c :: bytes).length + 1) h hline hparser
    obtain ⟨htook, -⟩ := took_takeBuffer cfg alloc commands _
      (Nat.lt_succ_self (c :: bytes).length) (.live h)
    have hlive := live_takeBuffer cfg alloc commands _ h (congrArg Prod.snd hbuffer)
    rw [hbuffer] at hdrops htook hlive
    obtain ⟨hsuffix, hline', -⟩ := hdrops
    obtain ⟨p₁, hp₁, -⟩ := hlive.parser
    obtain ⟨q, hq, htakes⟩ := htook p₁ hp₁
    obtain rfl := Option.some.inj (hparser.symm.trans hq)
    obtain ⟨hsuffix', hline₁, hcause⟩ := ih hlive (hline' hlive.isOpen) hp₁
    refine ⟨hsuffix'.trans hsuffix, hline₁, fun hclosed => ?_⟩
    obtain ⟨data, hdata, hcause⟩ := hcause hclosed
    refine ⟨c :: bytes ++ data, (List.prefix_append_right_inj _).mpr hdata, ?_⟩
    refine (hcause.mono (by simp [Readable]) hsuffix).before fun hfailed => ?_
    have hmore : Takes p₁ data _ (p₁.feed (fun _ => true) data).parser := ⟨rfl, rfl⟩
    rw [(htakes.append (h.resting hparser) hmore).2]
    exact hfailed

/-- What comes from a client in an event. -/
def comes (flags : Flags) (script : Script) : Bytes :=
  if flags.readable then received script.recvs else []

/-- The causes in an event. -/
def EventCause (flags : Flags) (script : Script) (p : Parser) (c' : Client) : Prop :=
  flags.hangup = true ∨ ∃ data, data <+: comes flags script ∧
    Cause (¬ Readable script.recvs) script.alloc script.sends p data c'

theorem drops_handleEvent (cfg : Config) (flags : Flags) (script : Script) (h : r.client.Live)
    (hline : r.client.InLine) (hparser : r.client.parser = some p)
    (hsends : r.sends = script.sends) :
    let c' := (handleEvent cfg script.alloc script.commands flags script.recvs r).client
    (c'.isOpen = true → c'.InLine) ∧
      (c'.isOpen = false → EventCause flags script p c') := by
  by_cases hhangup : flags.hangup ∧ ¬ flags.readable
  · rw [handleEvent, if_pos hhangup]
    exact ⟨by simp [closeClient], fun _ => .inl hhangup.1⟩
  · rw [handleEvent, if_neg hhangup]
    obtain ⟨hsuffix, hdrops, hsound, hstill⟩ : ∃ _ : (if flags.readable then
          handleReadable cfg script.alloc script.commands script.recvs r else r).sends <:+ r.sends,
        DropsOn script.alloc script.recvs (comes flags script) r.sends p
          (if flags.readable then handleReadable cfg script.alloc script.commands script.recvs r
            else r).client ∧
        (if flags.readable then handleReadable cfg script.alloc script.commands script.recvs r
          else r).client.Sound ∧
        (flags.readable = false → (if flags.readable then
          handleReadable cfg script.alloc script.commands script.recvs r
            else r).client.isOpen = true) := by
      unfold comes
      split_ifs with hflag
      · obtain ⟨hsuffix, hdrops⟩ := drops_handleReadable cfg script.alloc script.commands
          script.recvs h hline hparser
        exact ⟨hsuffix, hdrops, sound_handleReadable cfg _ _ _ (.live h), by simp [hflag]⟩
      · exact ⟨List.suffix_rfl, dropsOn_of_open _ _ hline h.isOpen, .live h, fun _ => h.isOpen⟩
    generalize (if flags.readable then
      handleReadable cfg script.alloc script.commands script.recvs r else r) = r₁ at *
    rw [hsends] at hsuffix hdrops
    dsimp only
    by_cases hgone : flags.readable ∧ r₁.client.parser.isNone
    · rw [if_pos hgone]
      exact ⟨hdrops.1, fun hclosed => .inr (hdrops.2 hclosed)⟩
    · rw [if_neg hgone]
      have hopen : r₁.client.isOpen = true := by
        cases hflag : flags.readable with
        | false => exact hstill hflag
        | true =>
          have hparser₁ : r₁.client.parser.isSome = true := by
            simpa [hflag, Option.isSome_iff_ne_none] using hgone
          exact (hsound.live_of_hasParser hparser₁).isOpen
      have hline₁ := hdrops.1 hopen
      obtain ⟨-, hline₂, hfailed⟩ := drops_trySend r₁.sends hline₁.lined
      constructor
      · split_ifs
        · simp [closeClient]
        · exact hline₂
        · simp [closeClient]
        · exact fun _ => hline₁
      · intro hclosed
        split_ifs at hclosed ⊢ with hwritable hhang hhang
        · exact .inl hhang.1
        · refine .inr ⟨[], List.nil_prefix, .send ?_⟩
          obtain hclosed | hsend := hfailed hclosed
          · rw [hopen] at hclosed
            cases hclosed
          · exact hsend.imp (hsuffix.subset ·) (hsuffix.subset ·)
        · exact .inl hhang.1
        · rw [hopen] at hclosed
          cases hclosed

/-! ## Runs -/

variable {events : List LoopEvent} {l l' : Loop} {fd : Nat} {flags : Flags} {script : Script}

theorem inLine_of_reaches (hr : (loopSystem cfg).Reaches events l) :
    ∀ fd, (l.clients fd).isOpen = true → (l.clients fd).InLine := by
  refine hr.invariant (P := fun _ l => ∀ fd, (l.clients fd).isOpen = true → (l.clients fd).InLine)
    ?_ ?_
  · intro l hl fd hopen
    rw [hl fd] at hopen
    cases hopen
  · intro h l e l' hr ih hs fd' hopen'
    cases hs with
    | @accept fd closed =>
      by_cases hfd : fd' = fd
      · subst hfd
        have hended : (l.clients fd').Ended := by
          cases sound_of_reaches hr fd' with
          | live h => simp [h.isOpen] at closed
          | ended h => exact h
        constructor
        · refine ⟨[], [], ?_, ?_, ?_⟩ <;> simp [Loop.accept, acceptClient, hended.outbox, Begun]
        · simp [Loop.accept, acceptClient, hended.outbox]
      · simpa [Loop.accept, hfd] using ih fd' (by simpa [Loop.accept, hfd] using hopen')
    | @ready fd flags script isOpen =>
      by_cases hfd : fd' = fd
      · subst hfd
        have hlive := (sound_of_reaches hr fd').live_of_isOpen isOpen
        obtain ⟨p, hp, -⟩ := hlive.parser
        have hdrops := drops_handleEvent (r := ⟨l.clients fd', l.storage, script.sends, 0⟩) cfg
          flags script hlive (ih fd' isOpen) hp rfl
        simp only [Loop.handle, Function.update_self] at hopen' ⊢
        exact hdrops.1 hopen'
      · simpa [Loop.handle, hfd] using ih fd' (by simpa [Loop.handle, hfd] using hopen')

theorem cause_of_closed (flags : Flags) (script : Script)
    (hr : (loopSystem cfg).Reaches events l) (hopen : (l.clients fd).isOpen = true)
    (hparser : (l.clients fd).parser = some p)
    (hclosed : ((l.handle cfg fd flags script).clients fd).isOpen = false) :
    EventCause flags script p ((l.handle cfg fd flags script).clients fd) := by
  have hlive := (sound_of_reaches hr fd).live_of_isOpen hopen
  have hdrops := drops_handleEvent (r := ⟨l.clients fd, l.storage, script.sends, 0⟩) cfg
    flags script hlive (inLine_of_reaches hr fd hopen) hparser rfl
  simp only [Loop.handle, Function.update_self] at hclosed ⊢
  exact hdrops.2 hclosed

/-- In every run, an event that closes a client has a cause: the connection has hung up, `recv` or
`send` has failed on it, it has come to its end, memory has run out, the parser refuses what has
come, or of the replies nothing has been written of the last 1024. -/
theorem closed_for_cause (hr : (loopSystem cfg).Reaches events l)
    (hs : Loop.Step cfg l (.ready fd flags script) l')
    (hclosed : (l'.clients fd).isOpen = false) :
    ∃ p, (l.clients fd).parser = some p ∧ EventCause flags script p (l'.clients fd) := by
  cases hs with
  | ready isOpen =>
    obtain ⟨p, hparser, -⟩ := ((sound_of_reaches hr fd).live_of_isOpen isOpen).parser
    exact ⟨p, hparser, cause_of_closed flags script hr isOpen hparser hclosed⟩

theorem refused_for_cause :
    let l := Loop.accept ⟨false, 8, fun _ => []⟩ ⟨fun _ => {}, Storage.init 1 1024 8⟩ 7
    ∃ p, (l.clients 7).parser = some p ∧ EventCause ⟨true, false, false⟩
      (pingThenBad [.sent 2, .again, .sent 100]) p
      ((refused [.sent 2, .again, .sent 100]).clients 7) :=
  closed_for_cause (.next (.start fun _ => rfl) (.accept rfl)) (.ready rfl) (by decide)

end Server

end PolyCache
