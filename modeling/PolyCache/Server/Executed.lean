import PolyCache.Server.Output

/-!
# What an event executes

The commands that the loop executes in an event, in order. Each is executed on the store that the
ones before it and the sweeper left, and its response is queued for the client. Nothing else is done
to the store.
-/

namespace PolyCache

open Protocol

namespace Server

/-- A command on the store that the sweeper leaves. -/
def executeAround (cfg : Config) (around : Surroundings) (cmd : Command) (s : Storage) : Outcome :=
  executeCommand cfg around.env around.fault cmd (sweep s around.steps)

/-- A command that has been executed, with what it found and what it did. -/
structure Execution where
  command : Command
  around : Surroundings
  outcome : Outcome

/-- An executed command, with the client it came from, what it found and the response that was
queued for it. -/
structure Exchange where
  fd : Nat
  command : Command
  around : Surroundings
  response : Response
  deriving DecidableEq

def Execution.exchange (fd : Nat) (x : Execution) : Exchange :=
  ⟨fd, x.command, x.around, x.outcome.response⟩

/-- The commands are executed from `s` on, one after the other, each in its surroundings, and leave
`s'`. -/
inductive Served (cfg : Config) : Storage → List Exchange → Storage → Prop where
  | nil {s : Storage} : Served cfg s [] s
  | cons {s s' : Storage} {fd : Nat} {cmd : Command} {around : Surroundings}
      {trace : List Exchange}
      (rest : Served cfg (executeAround cfg around cmd s).storage trace s') :
      Served cfg s (⟨fd, cmd, around, (executeAround cfg around cmd s).response⟩ :: trace) s'

theorem Served.append {cfg : Config} {s s' s'' : Storage} {trace trace' : List Exchange}
    (h : Served cfg s trace s') (h' : Served cfg s' trace' s'') :
    Served cfg s (trace ++ trace') s'' := by
  induction h with
  | nil => exact h'
  | cons _ ih => exact .cons (ih h')

/-- Every response is that of its command on the store that the commands before it left. -/
theorem Served.split {cfg : Config} {s s' : Storage} {before after : List Exchange} {x : Exchange}
    (h : Served cfg s (before ++ x :: after) s') :
    ∃ t, Served cfg s before t ∧
      x.response = (executeAround cfg x.around x.command t).response := by
  induction before generalizing s with
  | nil =>
    cases h with
    | cons => exact ⟨s, .nil, rfl⟩
  | cons y before ih =>
    cases h with
    | cons rest =>
      obtain ⟨t, ht, hresponse⟩ := ih rest
      exact ⟨t, .cons ht, hresponse⟩

/-- A command that `handle_readable` skips. -/
def Blank (cmd : Command) : Prop := cmd.type = .unknown ∧ cmd.verb = []

instance : DecidablePred Blank := fun cmd =>
  inferInstanceAs (Decidable (cmd.type = .unknown ∧ cmd.verb = []))

/-! ## Sending and closing -/

/-- The replies are as they were, and the parser too, unless the client was closed. -/
def Kept (c c' : Client) : Prop :=
  c'.replies = c.replies ∧ ∀ p, c'.parser = some p → c.parser = some p

theorem kept_close (c : Client) : Kept c (closeClient c) := ⟨rfl, fun _ hp => nomatch hp⟩

theorem kept_updateWatch (c : Client) : Kept c (updateWatch c) := by
  unfold updateWatch
  dsimp only
  split_ifs <;> exact ⟨rfl, fun _ => id⟩

theorem kept_trySend (c : Client) (sends : List SendResult) : Kept c (trySend c sends).1 := by
  unfold trySend
  cases c.outbox with
  | none => exact ⟨rfl, fun _ => id⟩
  | some queue =>
    dsimp only
    generalize (if (sendLoop sends queue c.written).queue = [] then none
      else some (sendLoop sends queue c.written).queue) = outbox
    split_ifs
    · exact ⟨rfl, fun _ hp => nomatch hp⟩
    · exact ⟨(kept_updateWatch _).1, (kept_updateWatch _).2⟩

theorem kept_queueResponse (c : Client) (response : Response) (sends : List SendResult) :
    Kept { c with replies := c.replies ++ [response.frame] }
      (queueResponse c response sends).1 := by
  unfold queueResponse
  dsimp only
  split_ifs
  · exact ⟨rfl, fun _ hp => nomatch hp⟩
  · exact kept_trySend _ _

/-! ## The commands -/

section Executed

variable (cfg : Config) (alloc : Nat → Bool) (commands : Nat → Surroundings)

/-- The commands that the loop over a received buffer executes, in order. -/
def executedBuffer : Nat → Run → Bytes → List Command
  | 0, _, _ => []
  | rounds + 1, r, data =>
    if data = [] then []
    else
      match r.client.parser with
      | none => []
      | some parser =>
        match parser.consume alloc data with
        | .needMore _ _ | .error _ _ => []
        | .ready cmd parser rest =>
          let r := runCommand cfg commands { r with client.parser := some parser } cmd
          [cmd].filter (fun cmd => ¬ Blank cmd) ++
            if r.client.parser.isNone then [] else executedBuffer rounds r rest

def executedReadable : List RecvResult → Run → List Command
  | [], _ | .again :: _, _ | .failed :: _, _ | .data [] :: _, _ => []
  | .intr :: recvs, r => executedReadable recvs r
  | .data (c :: bytes) :: recvs, r =>
    if r.client.parser.isNone then []
    else
      let taken := takeBuffer cfg alloc commands ((c :: bytes).length + 1) r (c :: bytes)
      executedBuffer cfg alloc commands ((c :: bytes).length + 1) r (c :: bytes) ++
        if taken.2 then [] else executedReadable recvs taken.1

def executedEvent (flags : Flags) (recvs : List RecvResult) (r : Run) : List Command :=
  if flags.readable then executedReadable cfg alloc commands recvs r else []

/-- The commands, from the `k`-th of an event on, which finds what the script has for the `k`-th. -/
def outcomes : Nat → Storage → List Command → List Execution
  | _, _, [] => []
  | k, s, cmd :: cmds =>
    ⟨cmd, commands k, executeAround cfg (commands k) cmd s⟩ ::
      outcomes (k + 1) (executeAround cfg (commands k) cmd s).storage cmds

def storeAfter : Nat → Storage → List Command → Storage
  | _, s, [] => s
  | k, s, cmd :: cmds => storeAfter (k + 1) (executeAround cfg (commands k) cmd s).storage cmds

variable {cfg commands} in
theorem outcomes_append (k : Nat) (s : Storage) (cmds later : List Command) :
    outcomes cfg commands k s (cmds ++ later) = outcomes cfg commands k s cmds ++
      outcomes cfg commands (k + cmds.length) (storeAfter cfg commands k s cmds) later := by
  induction cmds generalizing k s with
  | nil => rfl
  | cons cmd cmds ih =>
    rw [List.cons_append, outcomes, outcomes, ih, storeAfter, List.length_cons, List.cons_append]
    rw [Nat.add_assoc, Nat.add_comm 1]

variable {cfg commands} in
theorem storeAfter_append (k : Nat) (s : Storage) (cmds later : List Command) :
    storeAfter cfg commands k s (cmds ++ later) =
      storeAfter cfg commands (k + cmds.length) (storeAfter cfg commands k s cmds) later := by
  induction cmds generalizing k s with
  | nil => rfl
  | cons cmd cmds ih =>
    rw [List.cons_append, storeAfter, storeAfter, ih, List.length_cons, Nat.add_assoc,
      Nat.add_comm 1]

variable {cfg commands} in
theorem commands_outcomes (k : Nat) (s : Storage) (cmds : List Command) :
    (outcomes cfg commands k s cmds).map Execution.command = cmds := by
  induction cmds generalizing k s with
  | nil => rfl
  | cons cmd cmds ih => rw [outcomes, List.map_cons, ih]

variable {cfg commands} in
theorem served_outcomes (fd k : Nat) (s : Storage) (cmds : List Command) :
    Served cfg s ((outcomes cfg commands k s cmds).map (Execution.exchange fd))
      (storeAfter cfg commands k s cmds) := by
  induction cmds generalizing k s with
  | nil => exact .nil
  | cons cmd cmds ih => exact .cons (ih _ _)

/-- From `r` to `r'` the client is served `cmds`, one after the other, and nothing else is done to
the store. -/
structure Executes (r : Run) (cmds : List Command) (r' : Run) : Prop where
  storage : r'.storage = storeAfter cfg commands r.executed r.storage cmds
  replies : r'.client.replies = r.client.replies ++
    (outcomes cfg commands r.executed r.storage cmds).map fun x => x.outcome.response.frame
  executed : r'.executed = r.executed + cmds.length

end Executed

namespace Executes

variable {cfg : Config} {commands : Nat → Surroundings} {r r₁ r₂ : Run} {cmds later : List Command}

theorem of_same (storage : r₁.storage = r.storage) (replies : r₁.client.replies = r.client.replies)
    (executed : r₁.executed = r.executed) : Executes cfg commands r [] r₁ :=
  ⟨storage, by simp [outcomes, replies], executed⟩

theorem refl (r : Run) : Executes cfg commands r [] r := .of_same rfl rfl rfl

theorem trans (h : Executes cfg commands r cmds r₁) (h' : Executes cfg commands r₁ later r₂) :
    Executes cfg commands r (cmds ++ later) r₂ where
  storage := by rw [h'.storage, h.storage, h.executed, storeAfter_append]
  replies := by
    rw [h'.replies, h.replies, h.storage, h.executed, outcomes_append, List.map_append,
      List.append_assoc]
  executed := by rw [h'.executed, h.executed, List.length_append, Nat.add_assoc]

/-- Then nothing but sending, or closing the client. -/
theorem kept (h : Executes cfg commands r cmds r₁) (hkept : Kept r₁.client r₂.client)
    (storage : r₂.storage = r₁.storage) (executed : r₂.executed = r₁.executed) :
    Executes cfg commands r cmds r₂ :=
  ⟨storage.trans h.storage, hkept.1.trans h.replies, executed.trans h.executed⟩

theorem setParser {p : Option Parser}
    (h : Executes cfg commands { r with client.parser := p } cmds r₁) :
    Executes cfg commands r cmds r₁ := ⟨h.storage, h.replies, h.executed⟩

end Executes

variable (cfg : Config) (alloc : Nat → Bool) (commands : Nat → Surroundings)

theorem executes_runCommand (r : Run) (cmd : Command) : Executes cfg commands r
    ([cmd].filter fun cmd => ¬ Blank cmd) (runCommand cfg commands r cmd) := by
  by_cases hblank : Blank cmd
  · have hrun : runCommand cfg commands r cmd = r := if_pos hblank
    have hskip : [cmd].filter (fun cmd => ¬ Blank cmd) = [] := by simp [hblank]
    rw [hrun, hskip]
    exact .refl r
  · have hkept := kept_queueResponse r.client
      (executeAround cfg (commands r.executed) cmd r.storage).response r.sends
    have hrun : runCommand cfg commands r cmd =
        ⟨(queueResponse r.client (executeAround cfg (commands r.executed) cmd r.storage).response
          r.sends).1, (executeAround cfg (commands r.executed) cmd r.storage).storage,
          (queueResponse r.client (executeAround cfg (commands r.executed) cmd r.storage).response
          r.sends).2, r.executed + 1⟩ := if_neg hblank
    have hone : [cmd].filter (fun cmd => ¬ Blank cmd) = [cmd] := by simp [hblank]
    rw [hrun, hone]
    exact ⟨rfl, hkept.1, rfl⟩

variable {cfg commands} in
theorem parser_runCommand {r : Run} {p q : Parser} (cmd : Command)
    (hparser : r.client.parser = some p)
    (h : (runCommand cfg commands r cmd).client.parser = some q) : q = p := by
  by_cases hblank : Blank cmd
  · have hrun : runCommand cfg commands r cmd = r := if_pos hblank
    rw [hrun, hparser] at h
    exact (Option.some.inj h).symm
  · have hkept := kept_queueResponse r.client
      (executeAround cfg (commands r.executed) cmd r.storage).response r.sends
    have hrun : (runCommand cfg commands r cmd).client = (queueResponse r.client
        (executeAround cfg (commands r.executed) cmd r.storage).response r.sends).1 :=
      congrArg Run.client (if_neg hblank)
    rw [hrun] at h
    exact Option.some.inj ((hkept.2 q h).symm.trans hparser)

theorem executes_takeBuffer (rounds : Nat) (r : Run) (data : Bytes) :
    Executes cfg commands r (executedBuffer cfg alloc commands rounds r data)
      (takeBuffer cfg alloc commands rounds r data).1 := by
  induction rounds generalizing r data with
  | zero => exact .refl r
  | succ rounds ih =>
    rw [takeBuffer, executedBuffer]
    split_ifs
    · exact .refl r
    · cases r.client.parser with
      | none => exact .refl r
      | some p =>
        dsimp only
        cases p.consume alloc data with
        | needMore p' rest => exact .of_same rfl rfl rfl
        | error p' rest => exact .of_same rfl rfl rfl
        | ready cmd p' rest =>
          have hfirst :=
            (executes_runCommand cfg commands { r with client.parser := some p' } cmd).setParser
          dsimp only
          split_ifs
          · rw [List.append_nil]
            exact hfirst
          · exact hfirst.trans (ih _ _)

theorem executes_handleReadable (recvs : List RecvResult) (r : Run) :
    Executes cfg commands r (executedReadable cfg alloc commands recvs r)
      (handleReadable cfg alloc commands recvs r) := by
  fun_induction handleReadable cfg alloc commands recvs r with
  | case1 r => exact .refl r
  | case2 recvs r => exact .refl r
  | case3 r recvs ih => exact ih
  | case4 recvs r => exact .of_same rfl rfl rfl
  | case5 recvs r => exact .of_same rfl rfl rfl
  | case6 c bytes recvs r hnone =>
    rw [executedReadable, if_pos hnone]
    exact .refl r
  | case7 c bytes recvs r hsome r' hbuffer =>
    have htaken := executes_takeBuffer cfg alloc commands ((c :: bytes).length + 1) r (c :: bytes)
    rw [hbuffer] at htaken
    rw [executedReadable, if_neg hsome]
    dsimp only
    rw [hbuffer, if_pos rfl, List.append_nil]
    exact htaken
  | case8 c bytes recvs r hsome r' hbuffer ih =>
    have htaken := executes_takeBuffer cfg alloc commands ((c :: bytes).length + 1) r (c :: bytes)
    rw [hbuffer] at htaken
    rw [executedReadable, if_neg hsome]
    dsimp only
    rw [hbuffer, if_neg Bool.false_ne_true]
    exact htaken.trans ih

theorem executes_handleEvent (flags : Flags) (recvs : List RecvResult) (r : Run) :
    Executes cfg commands r (executedEvent cfg alloc commands flags recvs r)
      (handleEvent cfg alloc commands flags recvs r) := by
  by_cases hhangup : flags.hangup ∧ ¬ flags.readable
  · rw [handleEvent, if_pos hhangup, executedEvent, if_neg hhangup.2]
    exact .of_same rfl rfl rfl
  · rw [handleEvent, if_neg hhangup]
    have hread : Executes cfg commands r (executedEvent cfg alloc commands flags recvs r)
        (if flags.readable then handleReadable cfg alloc commands recvs r else r) := by
      rw [executedEvent]
      split_ifs
      · exact executes_handleReadable cfg alloc commands recvs r
      · exact .refl r
    generalize (if flags.readable then handleReadable cfg alloc commands recvs r else r) =
      r' at *
    have hsent : Executes cfg commands r (executedEvent cfg alloc commands flags recvs r)
        { r' with client := (trySend r'.client r'.sends).1
                  sends := (trySend r'.client r'.sends).2 } :=
      hread.kept (kept_trySend _ _) rfl rfl
    have hclose : ∀ {r₁ : Run},
        Executes cfg commands r (executedEvent cfg alloc commands flags recvs r) r₁ →
        Executes cfg commands r (executedEvent cfg alloc commands flags recvs r)
          { r₁ with client := closeClient r₁.client } :=
      fun h => h.kept (kept_close _) rfl rfl
    dsimp only
    split_ifs
    · exact hread
    · exact hclose hsent
    · exact hsent
    · exact hclose hread
    · exact hread

end Server

end PolyCache
