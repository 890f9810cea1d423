import PolyCache.Server.Session

/-!
# What an event adds

An event appends to what has been written to a client and takes nothing back, even if it closes the
client. A client that is closed has been served some of the commands that have come: the first of
them, in order.
-/

namespace PolyCache

open Protocol

namespace Server

variable {cfg : Config} {alloc : Nat → Bool} {commands : Nat → Surroundings} {fd : Nat}
  {r r₁ r' : Run} {p : Parser} {data : Bytes} {cmds cmds' : List Command}

/-! ## The bytes -/

/-- How many bytes `send` can take before it has nothing more to say. -/
def grant : List SendResult → Nat
  | [] => 0
  | .sent n :: sends => n + grant sends
  | _ :: sends => grant sends

/-- Bytes are appended to what has been written, as many as `send` takes. -/
def Writes (written : Bytes) (sends : List SendResult) (written' : Bytes)
    (sends' : List SendResult) : Prop :=
  written <+: written' ∧ written'.length + grant sends' ≤ written.length + grant sends

variable {written written₁ written₂ : Bytes} {sends sends₁ sends₂ : List SendResult}

theorem Writes.refl (written : Bytes) (sends : List SendResult) :
    Writes written sends written sends := ⟨List.prefix_rfl, Nat.le_refl _⟩

theorem Writes.trans (h : Writes written sends written₁ sends₁)
    (h' : Writes written₁ sends₁ written₂ sends₂) : Writes written sends written₂ sends₂ :=
  ⟨h.1.trans h'.1, h'.2.trans h.2⟩

theorem writes_sendLoop (sends : List SendResult) (queue : List OutChunk) (written : Bytes) :
    Writes written sends (sendLoop sends queue written).written
      (sendLoop sends queue written).sends := by
  fun_induction sendLoop sends queue written with
  | case1 | case2 => exact .refl _ _
  | case3 | case4 | case6 => exact ⟨List.prefix_rfl, by simp [grant]⟩
  | case5 sends queue written chunk queue' hqueue n hn sent ih =>
    refine Writes.trans ⟨List.prefix_append _ _, ?_⟩ ih
    have hsent : sent ≤ n := Nat.min_le_left _ _
    simp only [grant, List.length_append, List.length_take]
    omega
  | case7 sends queue written chunk queue' hqueue ih =>
    exact Writes.trans ⟨List.prefix_rfl, Nat.le_refl _⟩ ih

theorem written_updateWatch (c : Client) : (updateWatch c).written = c.written := by
  unfold updateWatch
  dsimp only
  split_ifs <;> rfl

theorem writes_trySend (c : Client) (sends : List SendResult) :
    Writes c.written sends (trySend c sends).1.written (trySend c sends).2 := by
  unfold trySend
  cases c.outbox with
  | none => exact .refl _ _
  | some queue =>
    dsimp only
    by_cases hfailed : (sendLoop sends queue c.written).failed = true
    · rw [if_pos hfailed]
      exact writes_sendLoop _ _ _
    · rw [if_neg hfailed, written_updateWatch]
      exact writes_sendLoop _ _ _

theorem writes_queueResponse (c : Client) (response : Response) (sends : List SendResult) :
    Writes c.written sends (queueResponse c response sends).1.written
      (queueResponse c response sends).2 := by
  simp only [queueResponse]
  split_ifs
  · exact .refl _ _
  · refine Writes.trans ?_ (writes_trySend _ _)
    exact .refl _ _

theorem writes_runCommand (cfg : Config) (commands : Nat → Surroundings) (r : Run)
    (cmd : Command) :
    Writes r.client.written r.sends (runCommand cfg commands r cmd).client.written
      (runCommand cfg commands r cmd).sends := by
  simp only [runCommand]
  split_ifs
  · exact .refl _ _
  · exact writes_queueResponse _ _ _

theorem writes_sendError (c : Client) (line : Bytes) (sends : List SendResult) :
    Writes c.written sends (sendError c line sends).1.written (sendError c line sends).2 := by
  refine ⟨List.prefix_append _ _, ?_⟩
  rcases sends with _ | ⟨_ | _ | _ | _, sends⟩
  case cons.sent n =>
    simp only [sendError, grant, List.length_append, List.length_take, List.tail_cons]
    omega
  all_goals simp [sendError, grant]

theorem writes_takeBuffer (cfg : Config) (alloc : Nat → Bool) (commands : Nat → Surroundings)
    (rounds : Nat) (r : Run) (data : Bytes) :
    Writes r.client.written r.sends
      (takeBuffer cfg alloc commands rounds r data).1.client.written
      (takeBuffer cfg alloc commands rounds r data).1.sends := by
  induction rounds generalizing r data with
  | zero => exact .refl _ _
  | succ rounds ih =>
    rw [takeBuffer]
    split_ifs
    · exact .refl _ _
    · cases r.client.parser with
      | none => exact .refl _ _
      | some p =>
        dsimp only
        cases p.consume alloc data with
        | needMore p' rest => exact .refl _ _
        | error p' rest =>
          exact writes_sendError { r.client with parser := some p' }
            (protocolError p'.error) r.sends
        | ready cmd p' rest =>
          have hrun := writes_runCommand cfg commands { r with client.parser := some p' } cmd
          dsimp only at hrun ⊢
          split_ifs
          · exact hrun
          · exact hrun.trans (ih _ _)

theorem writes_handleReadable (cfg : Config) (alloc : Nat → Bool)
    (commands : Nat → Surroundings) (recvs : List RecvResult) (r : Run) :
    Writes r.client.written r.sends (handleReadable cfg alloc commands recvs r).client.written
      (handleReadable cfg alloc commands recvs r).sends := by
  fun_induction handleReadable cfg alloc commands recvs r with
  | case1 | case2 | case4 | case5 | case6 => exact .refl _ _
  | case3 r recvs ih => exact ih
  | case7 c bytes recvs r hnone r' hbuffer =>
    have hwrites := writes_takeBuffer cfg alloc commands ((c :: bytes).length + 1) r (c :: bytes)
    rwa [hbuffer] at hwrites
  | case8 c bytes recvs r hnone r' hbuffer ih =>
    have hwrites := writes_takeBuffer cfg alloc commands ((c :: bytes).length + 1) r (c :: bytes)
    rw [hbuffer] at hwrites
    exact hwrites.trans ih

theorem writes_handleEvent (cfg : Config) (alloc : Nat → Bool) (commands : Nat → Surroundings)
    (flags : Flags) (recvs : List RecvResult) (r : Run) :
    Writes r.client.written r.sends
      (handleEvent cfg alloc commands flags recvs r).client.written
      (handleEvent cfg alloc commands flags recvs r).sends := by
  by_cases hhangup : flags.hangup ∧ ¬ flags.readable
  · rw [handleEvent, if_pos hhangup]
    exact .refl _ _
  · rw [handleEvent, if_neg hhangup]
    have hread : Writes r.client.written r.sends
        (if flags.readable then handleReadable cfg alloc commands recvs r else r).client.written
        (if flags.readable then handleReadable cfg alloc commands recvs r else r).sends := by
      split_ifs
      · exact writes_handleReadable cfg alloc commands recvs r
      · exact .refl _ _
    generalize (if flags.readable then handleReadable cfg alloc commands recvs r else r) = r' at *
    have hsent := hread.trans (writes_trySend r'.client r'.sends)
    dsimp only
    split_ifs <;> assumption

/-! ## The replies -/

/-- The commands that the parser finds in `data`, apart from blank ones. -/
def asked (p : Parser) (data : Bytes) : List Command :=
  (p.feed (fun _ => true) data).commands.filter fun cmd => ¬ Blank cmd

theorem takes_asked (p : Parser) (data : Bytes) :
    Takes p data (asked p data) (p.feed (fun _ => true) data).parser := ⟨rfl, rfl⟩

theorem asked_append (hp : p.Resting) (data more : Bytes) :
    asked p (data ++ more) =
      asked p data ++ asked (p.feed (fun _ => true) data).parser more :=
  ((takes_asked p data).append hp (takes_asked _ more)).1

theorem parser_feed_append (hp : p.Resting) (data more : Bytes) :
    (p.feed (fun _ => true) (data ++ more)).parser =
      ((p.feed (fun _ => true) data).parser.feed (fun _ => true) more).parser :=
  ((takes_asked p data).append hp (takes_asked _ more)).2

theorem asked_ready {cmd : Command} {p' : Parser} {rest : Bytes} (hp : p.Resting)
    (hdata : data ≠ []) (h : p.consume alloc data = .ready cmd p' rest) :
    asked p data = ([cmd].filter fun cmd => ¬ Blank cmd) ++ asked p' rest :=
  (takes_ready hp hdata h (takes_asked p' rest)).1

/-- What is executed are the first of the commands that the parser finds. -/
theorem executedBuffer_prefix (cfg : Config) (alloc : Nat → Bool) (commands : Nat → Surroundings)
    (rounds : Nat) (h : r.client.Live) (hparser : r.client.parser = some p) :
    executedBuffer cfg alloc commands rounds r data <+: asked p data := by
  induction rounds generalizing r data p with
  | zero => exact List.nil_prefix
  | succ rounds ih =>
    rw [executedBuffer]
    split_ifs with hdata
    · exact List.nil_prefix
    · have hresting := h.resting hparser
      simp only [hparser]
      cases hconsume : p.consume alloc data with
      | needMore p' rest => exact List.nil_prefix
      | error p' rest => exact List.nil_prefix
      | ready cmd p' rest =>
        obtain ⟨-, hrun⟩ := sound_of_ready cfg alloc commands h hparser hconsume
        have hkept : ∀ q, (runCommand cfg commands { r with client.parser := some p' }
            cmd).client.parser = some q → q = p' := fun q => parser_runCommand cmd rfl
        rw [asked_ready hresting hdata hconsume, List.prefix_append_right_inj]
        generalize runCommand cfg commands { r with client.parser := some p' } cmd = r₁ at *
        split_ifs with hnone
        · exact List.nil_prefix
        · obtain ⟨p₁, hp₁⟩ := Option.ne_none_iff_exists'.mp (by simpa using hnone)
          obtain rfl := hkept p₁ hp₁
          exact ih (hrun.live_of_hasParser (by simp [hp₁])) hp₁

/-- The loop over a buffer leaves a client open unless `handle_readable` returns. -/
theorem live_takeBuffer (cfg : Config) (alloc : Nat → Bool) (commands : Nat → Surroundings)
    (rounds : Nat) (h : r.client.Live)
    (hgoes : (takeBuffer cfg alloc commands rounds r data).2 = false) :
    (takeBuffer cfg alloc commands rounds r data).1.client.Live := by
  induction rounds generalizing r data with
  | zero => exact h
  | succ rounds ih =>
    obtain ⟨p, hparser, hresting⟩ := h.parser
    have hsound := Parser.consume_sound alloc data hresting.buffered
    rw [takeBuffer] at hgoes ⊢
    by_cases hdata : data = []
    · rw [if_pos hdata]
      exact h
    · rw [if_neg hdata] at hgoes ⊢
      simp only [hparser] at hgoes ⊢
      cases hconsume : p.consume alloc data with
      | needMore p' rest =>
        rw [hconsume] at hsound
        exact h.setParser hsound.1
      | error p' rest => simp [hconsume] at hgoes
      | ready cmd p' rest =>
        obtain ⟨-, hrun⟩ := sound_of_ready cfg alloc commands h hparser hconsume
        simp only [hconsume] at hgoes ⊢
        generalize runCommand cfg commands { r with client.parser := some p' } cmd = r₁ at *
        by_cases hnone : r₁.client.parser.isNone = true
        · simp [hnone] at hgoes
        · rw [if_neg hnone] at hgoes ⊢
          exact ih (hrun.live_of_hasParser (by simpa [Option.isSome_iff_ne_none] using hnone)) hgoes

theorem executedReadable_prefix (cfg : Config) (alloc : Nat → Bool)
    (commands : Nat → Surroundings) (recvs : List RecvResult) (h : r.client.Live)
    (hparser : r.client.parser = some p) :
    executedReadable cfg alloc commands recvs r <+: asked p (received recvs) := by
  fun_induction handleReadable cfg alloc commands recvs r generalizing p with
  | case1 | case2 | case4 | case5 => exact List.nil_prefix
  | case3 r recvs ih => exact ih h hparser
  | case6 c bytes recvs r hnone => simp [hparser] at hnone
  | case7 c bytes recvs r hnone r' hbuffer =>
    have hfirst : executedBuffer cfg alloc commands ((c :: bytes).length + 1) r (c :: bytes) <+:
        asked p (c :: bytes) := executedBuffer_prefix cfg alloc commands _ h hparser
    rw [executedReadable, if_neg hnone]
    dsimp only
    rw [hbuffer, if_pos rfl, List.append_nil, received, asked_append (h.resting hparser)]
    exact hfirst.trans (List.prefix_append _ _)
  | case8 c bytes recvs r hnone r' hbuffer ih =>
    obtain ⟨htook, -⟩ := took_takeBuffer cfg alloc commands _
      (Nat.lt_succ_self (c :: bytes).length) (.live h)
    have hlive := live_takeBuffer cfg alloc commands _ h (congrArg Prod.snd hbuffer)
    rw [hbuffer] at htook hlive
    obtain ⟨p₁, hp₁, -⟩ := hlive.parser
    obtain ⟨q, hq, hcommands, hleft⟩ := htook p₁ hp₁
    obtain rfl := Option.some.inj (hparser.symm.trans hq)
    have hall : asked p (c :: bytes) =
        executedBuffer cfg alloc commands ((c :: bytes).length + 1) r (c :: bytes) := hcommands
    rw [executedReadable, if_neg hnone]
    dsimp only
    rw [hbuffer, if_neg Bool.false_ne_true, received, asked_append (h.resting hparser), hall,
      hleft, List.prefix_append_right_inj]
    exact ih hlive hp₁

theorem executedEvent_prefix (cfg : Config) (alloc : Nat → Bool) (commands : Nat → Surroundings)
    (flags : Flags) (recvs : List RecvResult) (h : r.client.Live)
    (hparser : r.client.parser = some p) :
    executedEvent cfg alloc commands flags recvs r <+:
      asked p (if flags.readable then received recvs else []) := by
  rw [executedEvent]
  split_ifs
  · exact executedReadable_prefix cfg alloc commands recvs h hparser
  · exact List.nil_prefix

end Server

end PolyCache
