import PolyCache.Bench.Conn
import PolyCache.Protocol.RoundTrip
import PolyCache.Server.Reply
import PolyCache.Server.Session

/-!
# A client and the server

The benchmark sends commands one after the other without waiting, and reads their replies. Whatever
pieces the network makes of both streams, and whatever other clients do meanwhile, the answers that
it reads are what the responses to its commands mean, in order.
-/

namespace PolyCache

open Protocol Resp Pull Server

namespace Bench

/-- `encode` -/
def encode (args : List Bytes) : Bytes :=
  args.foldl (fun out arg => out ++ ascii "$" ++ Decimal.numeral arg.length ++ CRLF ++ arg ++ CRLF)
    (ascii "*" ++ Decimal.numeral args.length ++ CRLF)

theorem encode_eq (args : List Bytes) : encode args = Parser.encode args := by
  have hall : ∀ (args : List Bytes) (out : Bytes),
      args.foldl (fun out arg => out ++ ascii "$" ++ Decimal.numeral arg.length ++ CRLF ++ arg ++
        CRLF) out = out ++ args.flatMap Parser.encodeBulk := by
    intro args
    induction args with
    | nil => simp
    | cons arg args ih =>
      intro out
      rw [List.foldl_cons, ih, List.flatMap_cons]
      simp [Parser.encodeBulk, Parser.encodeHeader, ascii]
  rw [encode, hall]
  rfl

/-! ## Replies to safe commands -/

/-- The command has a verb, and no text of it is echoed that does not fit on a line. -/
def Safe (cfg : Config) : List Bytes → Prop
  | [] => False
  | verb :: args => verb ≠ [] ∧ ¬ Echoes cfg verb args

theorem isReply_of_safe {cfg : Config} (env : Env) (fault : Option Fault) (s : Storage)
    {args : List Bytes} (h : Safe cfg args) :
    IsReply (executeCommand cfg env fault (classify args) s).response.frame := by
  match args with
  | [] => exact h.elim
  | verb :: args =>
    obtain ⟨hverb, hecho⟩ := h
    have hargs : (classify (verb :: args)).args = args := rfl
    have hcmd : (classify (verb :: args)).verb = verb := rfl
    unfold Echoes at hecho
    unfold executeCommand
    cases htype : (classify (verb :: args)).type with
    | set =>
      apply (isReply_executeSet_iff cfg env fault s args).mpr
      simpa [htype] using hecho
    | unknown =>
      simp only [hcmd, if_neg hverb]
      apply (isReply_unknown_iff verb).mpr
      simpa [htype] using hecho
    | ping =>
      cases args with
      | nil => exact isReply_reply s (by decide)
      | cons text args =>
        simp only [hargs]
        split_ifs
        · exact isReply_reply s (by decide)
        · exact isReply_bulk text
    | get =>
      cases args with
      | nil => exact isReply_reply s (by decide)
      | cons key args =>
        simp only [hargs]
        split
        · exact .null
        · exact isReply_bulk _
    | del =>
      cases args with
      | nil => exact isReply_reply s (by decide)
      | cons key args =>
        simp only [hargs]
        split
        · exact isReply_of_isLine (by decide)
        · exact isReply_reply _ (by decide)
    | select => exact isReply_reply s (by decide)
    | metrics =>
      dsimp only
      rw [frame_of_crlf]
      exact .bulk _

/-! ## Conversations -/

/-- What the client may send: the server's parser takes it, and each reply to it is one line or one
bulk. -/
structure Valid (cfg : Config) (limit : Nat) (args : List Bytes) : Prop where
  count : args.length ≤ Parser.kMaxArgs
  size : ∀ arg ∈ args, arg.length ≤ limit ∧ arg.length < 10 ^ 18
  safe : Safe cfg args

variable {cfg : Config} {start l : Loop} {earlier later : List LoopEvent} {fd : Nat}
  {requests : List (List Bytes)}

theorem hasVerb_of_safe {args : List Bytes} (h : Safe cfg args) : HasVerb args := by
  match args with
  | [] => exact h.elim
  | [] :: _ => exact absurd rfl h.1
  | (_ :: _) :: _ => trivial

/-- The requests come out of the server's parser as they are, in whatever pieces they come. -/
theorem takes_encode {limit : Nat} (hvalid : ∀ args ∈ requests, Valid cfg limit args) :
    ∃ p : Parser, p.Fresh ∧
      Takes (Parser.init limit) (requests.flatMap encode) (requests.map classify) p := by
  have hencode : requests.flatMap encode = requests.flatMap Parser.encode :=
    congrArg requests.flatMap (funext encode_eq)
  have hframes : Frames (Parser.init limit).maxBulkLen requests
      (requests.flatMap Parser.encode) :=
    Parser.frames_encode (fun args hargs => (hvalid args hargs).count)
      fun args hargs => (hvalid args hargs).size
  obtain ⟨p, hfresh, -, hfeed⟩ : ∃ p : Parser, p.Fresh ∧ _ ∧
      (Parser.init limit).feed (fun _ => true) (requests.flatMap Parser.encode ++ []) = _ :=
    Parser.feed_frames (Parser.fresh_init limit) hframes (fun _ _ _ _ => rfl) []
  rw [List.append_nil, Parser.feed_nil] at hfeed
  refine ⟨p, hfresh, ?_⟩
  rw [Takes, hencode, hfeed, List.append_nil]
  refine ⟨List.filter_eq_self.mpr fun cmd hcmd => ?_, rfl⟩
  obtain ⟨args, hargs, rfl⟩ := List.mem_map.mp hcmd
  have hverb := hasVerb_of_safe (hvalid args hargs).safe
  simpa [blank_classify] using hverb

/-- Each response to a client is one reply. -/
theorem isReply_of_served {s s' : Storage} {trace : List Exchange}
    (hserved : Served cfg s trace s')
    (hcommands : (ofClient fd trace).map Exchange.command <+: requests.map classify)
    (hsafe : ∀ args ∈ requests, Safe cfg args) :
    ∀ x ∈ ofClient fd trace, IsReply x.response.frame := by
  intro x hx
  have hmem := hcommands.subset (List.mem_map_of_mem hx)
  obtain ⟨args, hargs, hcommand⟩ := List.mem_map.mp hmem
  obtain ⟨before, after, rfl⟩ := List.append_of_mem (List.mem_of_mem_filter hx)
  obtain ⟨t, -, hresponse⟩ := hserved.split
  rw [hresponse, ← hcommand]
  exact isReply_of_safe _ _ _ (hsafe args hargs)

/-- A client on a connection of its own sends requests that are safe. While the connection is open,
it reads the replies that have come, in whatever pieces, as what the responses to its requests mean,
in order. -/
theorem conversation (hstart : (loopSystem cfg).Reaches earlier start)
    (hclosed : (start.clients fd).isOpen = false)
    (hr : ((loopSystem cfg).startAt (start.accept cfg fd)).Reaches later l)
    (honce : LoopEvent.accept fd ∉ later) (hopen : (l.clients fd).isOpen = true)
    (hsent : receivedFrom fd later = requests.flatMap encode)
    (hvalid : ∀ args ∈ requests, Valid cfg (parseLimit cfg start.storage) args) :
    let trace := (start.accept cfg fd).trace cfg later
    Served cfg start.storage trace l.storage ∧
      (ofClient fd trace).map Exchange.command = requests.map classify ∧
      ∀ n pieces, (∀ piece ∈ pieces, piece ≠ []) → pieces.flatten <+: (l.clients fd).written →
        ((l.clients fd).replies.take n).flatten.length ≤ pieces.flatten.length →
        ∃ answers c pieces',
          readReplies (min n requests.length) {} pieces = some (answers, c, pieces') ∧
          List.Forall₂ (fun (x : Exchange) a => Means x.response.frame a)
            ((ofClient fd trace).take n) answers := by
  intro trace
  have hparser : (start.clients fd).parser = none := by
    cases sound_of_reaches hstart fd with
    | live h => simp [h.isOpen] at hclosed
    | ended h => exact h.parser
  have hinit : ((start.accept cfg fd).clients fd).parser =
      some (Parser.init (parseLimit cfg start.storage)) := by
    simp [Loop.accept, acceptClient, hparser]
  have haccepted := hstart.next (.accept hclosed)
  have hserved : Served cfg start.storage trace l.storage := served_trace hr
  obtain ⟨hreplies, htakes⟩ := conversed_of_reaches haccepted
    (by simp [Loop.accept, acceptClient]) hr honce
  have hlive : (l.clients fd).Live := by
    cases sound_of_reaches (haccepted.append_startAt hr) fd with
    | live h => exact h
    | ended h => simp [h.isOpen] at hopen
  obtain ⟨p', hp', -⟩ := hlive.parser
  obtain ⟨p, hp, hcommands⟩ := htakes p' hp'
  obtain rfl := Option.some.inj (hinit.symm.trans hp)
  rw [hsent] at hcommands
  obtain ⟨q, -, hwhole⟩ := takes_encode hvalid
  have hall := hcommands.1.symm.trans hwhole.1
  refine ⟨hserved, hall, fun n pieces hpieces hpre hcome => ?_⟩
  -- the replies that have come are the first of all that the client is promised
  have htotal : pieces.flatten <+: (l.clients fd).replies.flatten := by
    apply hpre.trans
    rw [← hlive.balance]
    exact List.prefix_append _ _
  have hfirst : ((l.clients fd).replies.take n).flatten <+: (l.clients fd).replies.flatten :=
    (List.take_prefix _ _).flatten
  obtain ⟨rest, hrest⟩ := List.prefix_of_prefix_length_le hfirst htotal hcome
  have htake : (l.clients fd).replies.take n =
      ((ofClient fd trace).take n).map fun x => x.response.frame := by
    rw [hreplies, List.map_take]
  have hisReply : ∀ reply ∈ (l.clients fd).replies.take n, IsReply reply := by
    intro reply hmem
    rw [htake] at hmem
    obtain ⟨x, hx, rfl⟩ := List.mem_map.mp hmem
    exact isReply_of_served hserved (hall ▸ List.prefix_rfl)
      (fun args hargs => (hvalid args hargs).safe) x (List.mem_of_mem_take hx)
  obtain ⟨answers, hanswers⟩ := exists_answers hisReply
  have hahead : ahead ({} : Conn) pieces = ((l.clients fd).replies.take n).flatten ++ rest :=
    hrest.symm
  obtain ⟨c, pieces', hread, -⟩ := readReplies_of_means hpieces hanswers hahead
  have hlength : ((l.clients fd).replies.take n).length = min n requests.length := by
    have hcount := congrArg List.length hall
    rw [List.length_map, List.length_map] at hcount
    rw [htake, List.length_map, List.length_take, hcount]
  rw [hlength] at hread
  rw [htake] at hanswers
  exact ⟨answers, c, pieces', hread, List.forall₂_map_left_iff.mp hanswers⟩

/-! A client that sets `k` and reads it. -/

def talk : List (List Bytes) := [[ascii "SET", ascii "k", ascii "v"], [ascii "GET", ascii "k"]]

/-- The requests come in two pieces. -/
def talkScript : Script where
  recvs := [.data ((talk.flatMap encode).take 10), .intr, .data ((talk.flatMap encode).drop 10)]
  sends := [.sent 3, .sent 9, .again, .sent 9, .sent 9, .sent 9]
  commands _ := { env := ⟨0, 1, 0⟩ }
  alloc _ := true

def afterTalk : Loop :=
  (idle.accept ⟨false, 8, fun _ => []⟩ 7).handle ⟨false, 8, fun _ => []⟩ 7 ⟨true, true, false⟩
    talkScript

theorem reaches_talk :
    ((loopSystem ⟨false, 8, fun _ => []⟩).startAt (idle.accept ⟨false, 8, fun _ => []⟩ 7)).Reaches
      [.ready 7 ⟨true, true, false⟩ talkScript] afterTalk :=
  .next (.start rfl) (.ready rfl)

def talkPieces : List Bytes :=
  [ascii "+O", ascii "K\r\n$1", ascii "\r\nv\r", ascii "\n"]

/-- It reads `OK` and what it has set. -/
theorem talk_answered : ∃ trace answers,
    (ofClient 7 trace).map Exchange.command = talk.map classify ∧
      answers = [.status (ascii "OK"), .blob (ascii "v")] ∧
      List.Forall₂ (fun (x : Exchange) a => Means x.response.frame a)
        ((ofClient 7 trace).take 2) answers := by
  have hidle : (loopSystem ⟨false, 8, fun _ => []⟩).Reaches [] idle := .start fun _ => rfl
  have hsafe : ∀ args ∈ talk, Safe ⟨false, 8, fun _ => []⟩ args := by
    have hset : (classify [ascii "SET", ascii "k", ascii "v"]).type = .set := by decide
    have hget : (classify [ascii "GET", ascii "k"]).type = .get := by decide
    intro args hargs
    simp only [talk, List.mem_cons, List.not_mem_nil, or_false] at hargs
    obtain rfl | rfl := hargs
    · exact ⟨by decide, by simp [Echoes, hset, setEcho, unsupported]⟩
    · exact ⟨by decide, by simp [Echoes, hget]⟩
  have hcount : ∀ args ∈ talk, args.length ≤ Parser.kMaxArgs := by decide
  have hsize : ∀ args ∈ talk, ∀ arg ∈ args,
      arg.length ≤ parseLimit ⟨false, 8, fun _ => []⟩ idle.storage ∧ arg.length < 10 ^ 18 := by
    decide +kernel
  obtain ⟨-, hcommands, hread⟩ := conversation hidle rfl reaches_talk (by simp)
    (by decide +kernel) (by decide +kernel)
    fun args hargs => ⟨hcount args hargs, hsize args hargs, hsafe args hargs⟩
  obtain ⟨answers, c, pieces', hanswers, hmeans⟩ := hread 2 talkPieces (by decide)
    (by decide +kernel) (by decide +kernel)
  have hknown : (readReplies 2 {} talkPieces).map Prod.fst =
      some [.status (ascii "OK"), .blob (ascii "v")] := by decide +kernel
  have hsame : (readReplies 2 {} talkPieces).map Prod.fst = some answers :=
    congrArg (Option.map Prod.fst) hanswers
  exact ⟨_, answers, hcommands, Option.some.inj (hsame.symm.trans hknown), hmeans⟩

end Bench

end PolyCache
