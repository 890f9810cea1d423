import PolyCache.Server.Live

/-!
# What clients are promised

A reply that confirms a write is a promise that the log keeps: a restart replays the confirmed
writes, in the order in which the server executed them, and no others. A reply to `GET` that has a
value is the last write of the key that was confirmed to any client, and it was not a deletion.
-/

namespace PolyCache

open AssocMap Protocol Aof

namespace Server

variable {cfg : Config} {lib : JsonLib} {buckets memoryLimit maxValueSize : Nat} {j : Journal}
  {n n' : Node} {e : Nat × Entry}

/-- The call that an exchange confirms. -/
def Exchange.confirms (x : Exchange) : Option Record := confirmed x.command x.response

theorem accepted_reverse (j : Journal) :
    (accepted j).reverse = (exchanged j).filterMap fun p => confirmed p.1 p.2 := by
  induction j with
  | nil => rfl
  | cons e j ih =>
    obtain ⟨t, entry⟩ := e
    cases entry with
    | background e => simpa [accepted, exchanged, Entry.confirms] using ih
    | command cmd response =>
      rw [accepted_cons, List.reverse_append, ih]
      cases hcall : confirmed cmd response <;> simp [exchanged, Entry.confirms, hcall]

theorem confirms_of_exchanged {trace : List Exchange}
    (h : exchanged j = trace.map fun x => (x.command, x.response)) :
    (accepted j).reverse = trace.filterMap Exchange.confirms := by
  rw [accepted_reverse, h, List.filterMap_map]
  rfl

/-! ## The store and the confirmed calls -/

/-- A stored value is what the calls leave, which are listed newest first. -/
def Confirmed (calls : List Record) (s : Storage) : Prop :=
  ∀ k m, s.data.lookup k = some m → ∃ ttl, contents calls k = some (m.value, ttl)

theorem Confirmed.effect {calls : List Record} {s s' : Storage} {env : Env} {logged : List Record}
    {call : Option Record} (h : Confirmed calls s) (he : Effect env s s' logged call) :
    Confirmed (call.toList ++ calls) s' := by
  intro k m hm
  cases he with
  | @set key text ttl fits =>
    have hput : contents ([Record.set key text ttl] ++ calls) k =
        if k = key then some (text, ttl) else contents calls k := Contents.put_apply _ _ _ _ _
    rw [Storage.lookup_set env.now env.buckets ttl fits] at hm
    rw [Option.toList_some, hput]
    split_ifs at hm ⊢
    · exact ⟨ttl, by rw [← Option.some.inj hm]; rfl⟩
    · exact h k m hm
  | get key => exact h k m ((Storage.Shrinks.get _ _ _).data k m hm).1
  | @del key removed =>
    have hremove : contents ([Record.del key] ++ calls) k =
        if k = key then none else contents calls k := Contents.remove_apply _ _ _
    obtain ⟨old, hold⟩ := Option.isSome_iff_exists.mp ((Storage.del_fst s key).symm.trans removed)
    rw [Storage.del_of_present hold] at hm
    have hm : (s.removeEntry key old).data.lookup k = some m := hm
    rw [Storage.lookup_removeEntry] at hm
    rw [Option.toList_some, hremove]
    split_ifs at hm ⊢
    exact h k m hm
  | none => exact h k m hm

theorem Confirmed.step {calls : List Record} (haof : cfg.aof = true)
    (h : Confirmed calls n.world.storage) (hs : Step cfg lib n e n') :
    Confirmed (e.2.confirms.toList ++ calls) n'.world.storage := by
  cases hs with
  | command buckets spare cmd => exact h.effect (n.effect haof buckets spare cmd)
  | @background e w step hbackground =>
    intro k m hm
    apply h k m
    cases step with
    | set | get | del => cases hbackground
    | collect => exact hm
    | expire key => exact ((Storage.Shrinks.expireKey _ _).data k m hm).1
    | tick => exact hm

theorem confirmed_of_reaches (haof : cfg.aof = true)
    (hr : (system cfg lib buckets memoryLimit maxValueSize).Reaches j n) :
    Confirmed (accepted j) n.world.storage := by
  refine hr.invariant (P := fun j n => Confirmed (accepted j) n.world.storage) ?_ ?_
  · intro n hn k m hm
    rw [hn.1] at hm
    cases hm
  · intro j n e n' _ ih hs
    rw [accepted_cons]
    exact ih.step haof hs

/-! ## Reads -/

theorem get_of_bulk {env : Env} {fault : Option Fault} {cmd : Command} {key value : Bytes}
    {args : List Bytes} {s : Storage} (htype : cmd.type = .get) (hargs : cmd.args = key :: args)
    (hbulk : (executeCommand cfg env fault cmd s).response = bulk value) :
    (s.get env.now key).1 = some value := by
  rw [response_get htype hargs] at hbulk
  cases hget : (s.get env.now key).1 with
  | none =>
    rw [hget] at hbulk
    simp [bulk] at hbulk
  | some blob =>
    rw [hget] at hbulk
    have hblob : some blob = some value := congrArg Response.blob hbulk
    exact hblob

theorem lookup_of_get {s : Storage} {now : Nat} {key value : Bytes}
    (hget : (s.get now key).1 = some value) :
    ∃ m, s.data.lookup key = some m ∧ m.value = value := by
  obtain ⟨hpresent, hfresh⟩ := (Storage.get_isSome s now key).mp (by simp [hget])
  obtain ⟨m, hm⟩ := Option.isSome_iff_exists.mp hpresent
  rw [Storage.get_of_present hfresh hm] at hget
  exact ⟨m, hm, Option.some.inj hget⟩

/-- What a `GET` reads is what the calls leave. -/
theorem Confirmed.read {calls : List Record} {t : Nat} {cmd : Command} {key value : Bytes}
    {args : List Bytes} (h : Confirmed calls n.world.storage)
    (hs : Step cfg lib n (t, .command cmd (bulk value)) n') (htype : cmd.type = .get)
    (hargs : cmd.args = key :: args) : ∃ ttl, contents calls key = some (value, ttl) := by
  generalize hresponse : bulk value = response at hs
  cases hs with
  | command buckets spare cmd =>
    obtain ⟨m, hm, rfl⟩ := lookup_of_get (get_of_bulk htype hargs hresponse.symm)
    exact h key m hm

/-- A read in a run of the node. -/
theorem read_confirmed (haof : cfg.aof = true)
    (hr : (system cfg lib buckets memoryLimit maxValueSize).Reaches j n) {newer older : Journal}
    {t : Nat} {cmd : Command} {key value : Bytes} {args : List Bytes}
    (heq : j = newer ++ (t, Entry.command cmd (bulk value)) :: older) (htype : cmd.type = .get)
    (hargs : cmd.args = key :: args) :
    ∃ ttl, contents (accepted older) key = some (value, ttl) := by
  induction hr generalizing newer with
  | start => simp at heq
  | @next j n n' e hr hs ih =>
    cases newer with
    | cons e newer => exact ih (List.cons.inj heq).2
    | nil =>
      obtain ⟨rfl, rfl⟩ := List.cons.inj heq
      exact (confirmed_of_reaches haof hr).read hs htype hargs

/-- A response stands where it was given. -/
theorem split_of_exchanged {before after : List (Command × Response)} {cmd : Command}
    {response : Response} (h : exchanged j = before ++ (cmd, response) :: after) :
    ∃ newer t older, j = newer ++ (t, .command cmd response) :: older ∧
      exchanged older = before := by
  rw [exchanged, List.reverse_eq_iff, List.reverse_append, List.reverse_cons, List.append_assoc,
    List.singleton_append] at h
  obtain ⟨newer, rest, rfl, -, hrest⟩ := List.filterMap_eq_append_iff.mp h
  obtain ⟨skipped, ⟨t, entry⟩, older, rfl, -, hentry, holder⟩ := List.filterMap_eq_cons_iff.mp hrest
  cases entry with
  | background => cases hentry
  | command cmd' response' =>
    cases hentry
    exact ⟨newer ++ skipped, t, older, by simp, by rw [exchanged, holder, List.reverse_reverse]⟩

namespace Live

variable {g : List LiveEvent} {l : Live}

/-- A restart replays the calls that responses have confirmed, in the order in which they were
executed. No allocation of `execute_command` fails in such a run. Some of the responses may be
queued for a client that is closed before it gets them. -/
theorem replay_confirmed (haof : cfg.aof = true) (hlib : lib.Lawful)
    (hr : (liveSystem cfg lib buckets memoryLimit maxValueSize).Reaches g l) :
    replay lib l.file = l.trace.filterMap Exchange.confirms := by
  obtain ⟨j, n, hnode, rfl, hexchanged, -⟩ := explains_of_reaches hr
  have hfile := file_of_reaches haof hnode
  rw [← confirms_of_exchanged hexchanged, ← replay_log hlib (accepted_inRange j), ← hfile]
  rfl

theorem afterFetch_replays : replay Compact.lib afterFetch.file =
    [.set (ascii "k") (ascii "v") 0] := by
  obtain ⟨g, hr⟩ := reaches_afterFetch
  have hconfirmed : afterFetch.trace.filterMap Exchange.confirms =
      [.set (ascii "k") (ascii "v") 0] := by decide +kernel
  exact (replay_confirmed rfl Compact.lawful hr).trans hconfirmed

/-- A value that a client reads is the last one that was confirmed under the key before, to whatever
client, and has not been deleted since, where no allocation of `execute_command` fails. -/
theorem reads_confirmed (haof : cfg.aof = true)
    (hr : (liveSystem cfg lib buckets memoryLimit maxValueSize).Reaches g l) {x : Exchange}
    {before after : List Exchange} (htrace : l.trace = before ++ x :: after)
    (htype : x.command.type = .get) {key value : Bytes} {args : List Bytes}
    (hargs : x.command.args = key :: args) (hbulk : x.response = bulk value) :
    ∃ ttl, contents (before.filterMap Exchange.confirms).reverse key = some (value, ttl) := by
  obtain ⟨j, n, hnode, -, hexchanged, -⟩ := explains_of_reaches hr
  rw [htrace, List.map_append, List.map_cons] at hexchanged
  rw [hbulk] at hexchanged
  obtain ⟨newer, t, older, hsplit, holder⟩ := split_of_exchanged hexchanged
  obtain ⟨ttl, hvalue⟩ := read_confirmed haof hnode hsplit htype hargs
  rw [← confirms_of_exchanged holder, List.reverse_reverse]
  exact ⟨ttl, hvalue⟩

/-- The second client reads what the first has set. -/
theorem afterFetch_reads : ∃ before, afterFetch.trace =
      before ++ [⟨8, ⟨.get, ascii "GET", [ascii "k"]⟩, { env := ⟨0, 1, 0⟩ }, bulk (ascii "v")⟩] ∧
    ∃ ttl, contents (before.filterMap Exchange.confirms).reverse (ascii "k") =
      some (ascii "v", ttl) := by
  obtain ⟨g, hr⟩ := reaches_afterFetch
  have htrace : afterFetch.trace =
      afterPut.trace ++ [⟨8, ⟨.get, ascii "GET", [ascii "k"]⟩, { env := ⟨0, 1, 0⟩ },
        bulk (ascii "v")⟩] := by decide +kernel
  exact ⟨afterPut.trace, htrace, reads_confirmed rfl hr htrace rfl rfl rfl⟩

end Live

end Server

end PolyCache
