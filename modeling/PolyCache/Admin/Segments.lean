import PolyCache.Admin.Http

/-!
# Requests in segments

A request reaches `handle_connection` in as many pieces as the network makes of it. The first
readiness event that finds no more to read is answered, and the connection with it is closed.
-/

namespace PolyCache

open Protocol Server

namespace AdminServer

/-! ## Blank lines -/

theorem find_isSome_iff {needle text : Bytes} : (find needle text).isSome ↔ needle <:+: text := by
  induction text with
  | nil =>
    rw [find]
    split_ifs with h <;> simp [h]
  | cons c text ih =>
    rw [find, List.infix_cons_iff]
    split_ifs with h
    · simp [h]
    · simp [h, ih]

/-- Some blank line is in the text. -/
def HasBlank (text : Bytes) : Prop := CRLF ++ CRLF <:+: text ∨ [LF, LF] <:+: text

theorem hasBlankLine_iff {text : Bytes} : hasBlankLine text = true ↔ HasBlank text := by
  rw [hasBlankLine, Bool.or_eq_true, find_isSome_iff, find_isSome_iff, HasBlank]

/-- A request: its end is the first blank line in it. -/
structure IsRequest (request : Bytes) : Prop where
  small : request.length ≤ kMaxRequest
  ends : CRLF ++ CRLF <:+ request ∨ [LF, LF] <:+ request
  once : ∀ before, before <+: request → before ≠ request → ¬ HasBlank before

/-! ## Segments -/

/-- The bytes that `recv` brings. -/
def received (recvs : List RecvResult) : Bytes :=
  recvs.flatMap fun
    | .data bytes => bytes
    | _ => []

/-- The events bring the request and no end of the stream. Each `recv` may be interrupted, and
`send` may be too, but it does not fail. -/
structure Segments (request : Bytes) (events : List Readiness) : Prop where
  parts : (events.flatMap fun e => received e.recvs) = request
  recvs : ∀ e ∈ events, ∀ r ∈ e.recvs,
    r = .intr ∨ ∃ bytes, r = .data bytes ∧ bytes ≠ [] ∧ bytes.length ≤ bufSize
  sends : ∀ e ∈ events, ∀ r ∈ e.sends, r ≠ .failed ∧ r ≠ .sent 0

/-- No part of the request is answered, and the whole is answered by its reply. -/
structure Answered (request : Bytes) (events : List Readiness) (c : Conn) : Prop where
  whole : c.answered = [request]
  sent : ∃ e ∈ events, c.sent = handleRequest e.dump request

/-- All of a response gets out if no `send` fails. -/
theorem sendAll_eq {sends : List SendResult} {response : Bytes}
    (h : ∀ r ∈ sends, r ≠ .failed ∧ r ≠ .sent 0) : sendAll sends response = response := by
  fun_induction sendAll sends response with
  | case1 => rfl
  | case2 => rfl
  | case3 => exact absurd rfl (h _ List.mem_cons_self).2
  | case4 => exact absurd rfl (h _ List.mem_cons_self).1
  | case5 sends response hne n hn ih =>
    rw [ih fun r hr => h r (List.mem_cons_of_mem _ hr), List.take_append_drop]
  | case6 sends response hne ih => exact ih fun r hr => h r (List.mem_cons_of_mem _ hr)
  | case7 sends response hne ih => exact ih fun r hr => h r (List.mem_cons_of_mem _ hr)

/-- Up to the blank line the loop collects all that one event brings, and no more. -/
theorem readRequest_eq {recvs : List RecvResult} {request : Bytes}
    (hrecvs : ∀ r ∈ recvs, r = .intr ∨ ∃ bytes, r = .data bytes ∧ bytes ≠ [])
    (hsmall : (request ++ received recvs).length ≤ kMaxRequest)
    (honce : ∀ before, before <+: request ++ received recvs →
      before ≠ request ++ received recvs → ¬ HasBlank before) :
    readRequest recvs request = .request (request ++ received recvs) := by
  induction recvs generalizing request with
  | nil => simp [readRequest, received]
  | cons r recvs ih =>
    have hrest : ∀ r ∈ recvs, r = .intr ∨ ∃ bytes, r = .data bytes ∧ bytes ≠ [] :=
      fun r hr => hrecvs r (List.mem_cons_of_mem _ hr)
    obtain rfl | ⟨bytes, rfl, hne⟩ := hrecvs r List.mem_cons_self
    · exact ih hrest hsmall honce
    · obtain ⟨c, bytes, rfl⟩ := List.exists_cons_of_ne_nil hne
      have hall : request ++ received (.data (c :: bytes) :: recvs) =
          request ++ c :: bytes ++ received recvs := by
        simp [received]
      rw [hall] at hsmall honce ⊢
      have hlength : ¬ (request ++ c :: bytes).length > kMaxRequest := by
        rw [List.length_append] at hsmall
        omega
      rw [readRequest, if_neg hlength]
      split_ifs with hblank
      · -- the blank line is the end of all that comes
        by_contra hne
        refine honce _ (List.prefix_append _ _) (fun heq => hne ?_) (hasBlankLine_iff.mp hblank)
        rw [← heq]
      · exact ih hrest hsmall honce

variable {request : Bytes} {events : List Readiness}

theorem serve_of_closed (events : List Readiness) {c : Conn} (h : c.isOpen = false) :
    events.foldl (fun c e => if c.isOpen then handleConnection e c else c) c = c := by
  induction events with
  | nil => rfl
  | cons e events ih =>
    rw [List.foldl_cons, h]
    exact ih

/-- Whatever the first event brings is answered as a request. -/
theorem serve_cons {e : Readiness} (hrequest : IsRequest request)
    (h : Segments request (e :: events)) : serve (e :: events) =
      { isOpen := false
        sent := handleRequest e.dump (received e.recvs)
        answered := [received e.recvs] } := by
  have hparts := h.parts
  rw [List.flatMap_cons] at hparts
  have hpre : received e.recvs <+: request := ⟨_, hparts⟩
  have hread : readRequest e.recvs [] = .request (received e.recvs) := by
    refine readRequest_eq (fun r hr => ?_) (hpre.length_le.trans hrequest.small)
      fun before hbefore hne => ?_
    · obtain hintr | ⟨bytes, hdata, hbytes, -⟩ := h.recvs e List.mem_cons_self r hr
      · exact .inl hintr
      · exact .inr ⟨bytes, hdata, hbytes⟩
    · refine hrequest.once before (hbefore.trans hpre) fun heq => hne ?_
      exact hbefore.eq_of_length_le (heq ▸ hpre.length_le)
  have hclosed : handleConnection e {} =
      { isOpen := false
        sent := handleRequest e.dump (received e.recvs)
        answered := [received e.recvs] } := by
    rw [handleConnection, hread]
    dsimp only
    rw [sendAll_eq (h.sends e List.mem_cons_self)]
    rfl
  rw [serve, List.foldl_cons, if_pos rfl, hclosed]
  exact serve_of_closed events rfl

/-- The whole request is answered, and nothing else, if and only if the first readiness event of the
connection brings all of it. -/
theorem answered_iff (hrequest : IsRequest request) (h : Segments request events) :
    Answered request events (serve events) ↔
      ∃ e rest, events = e :: rest ∧ received e.recvs = request := by
  constructor
  · intro hanswered
    cases events with
    | nil =>
      obtain ⟨e, he, -⟩ := hanswered.sent
      exact nomatch he
    | cons e rest =>
      have hwhole := hanswered.whole
      rw [serve_cons hrequest h] at hwhole
      exact ⟨e, rest, rfl, (List.cons.inj hwhole).1⟩
  · rintro ⟨e, rest, rfl, hfirst⟩
    rw [serve_cons hrequest h, hfirst]
    exact ⟨rfl, e, List.mem_cons_self, rfl⟩

/-- `GET /health` in a text of its own. -/
def healthRequest : Bytes := ascii "GET /health HTTP/1.1\r\n\r\n"

theorem isRequest_health : IsRequest healthRequest := by
  refine ⟨by decide, Or.inl (by decide), fun before hbefore hne hblank => ?_⟩
  have hall : ∀ n < healthRequest.length, hasBlankLine (healthRequest.take n) = false := by decide
  have hlt := lt_of_le_of_ne hbefore.length_le fun heq => hne (hbefore.eq_of_length heq)
  have hclean := hall before.length hlt
  rw [← List.prefix_iff_eq_take.mp hbefore, hasBlankLine_iff.mpr hblank] at hclean
  exact nomatch hclean

/-- It is answered when one event brings it, be it in two pieces. -/
theorem answered_health :
    let events : List Readiness :=
      [⟨[.data (healthRequest.take 7), .intr, .data (healthRequest.drop 7)], [.sent 5, .again], []⟩]
    Answered healthRequest events (serve events) :=
  (answered_iff isRequest_health ⟨by decide, by simp [healthRequest, bufSize, ascii], by simp⟩).mpr
    ⟨_, _, rfl, by decide⟩

/-- When it comes in two events, its first seven bytes are answered with `400`. -/
theorem partial_request_answered : ¬ ∀ (request : Bytes) (events : List Readiness),
    IsRequest request → Segments request events → Answered request events (serve events) := by
  intro hall
  have hanswered := hall healthRequest
    [⟨[.data (healthRequest.take 7)], [], []⟩, ⟨[.data (healthRequest.drop 7)], [], []⟩]
    isRequest_health ⟨by decide, by simp [healthRequest, bufSize, ascii], by simp⟩
  exact absurd hanswered.whole (by decide)

end AdminServer

end PolyCache
