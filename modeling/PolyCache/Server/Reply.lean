import PolyCache.Server.Command

/-!
# Responses as replies

Which commands are answered with exactly one reply. A response is one unless it echoes a text of
the client that does not fit on a line.
-/

namespace PolyCache

open Protocol Resp

namespace Server

/-! ## Framing -/

/-- A head that fits on a line gets its line end. -/
theorem frame_of_oneLine {head : Bytes} (h : OneLine head) :
    Response.frame { head := head } = head ++ CRLF := by
  have hsuffix : ¬ CRLF <:+ head := fun hs => h.1 (hs.subset List.mem_cons_self)
  simp [Response.frame, Response.complete, Response.bytes, hsuffix]

theorem isReply_frame_line {tag : UInt8} {text : Bytes} (htag : IsTag tag) (h : OneLine text) :
    IsReply (Response.frame { head := tag :: text }) := by
  have hhead : OneLine (tag :: text) := by
    unfold OneLine IsTag at *
    grind
  rw [frame_of_oneLine hhead]
  exact .line htag h

theorem isReply_bulk (blob : Bytes) : IsReply (bulk blob).frame := by
  have hreply := IsReply.bulk blob
  simpa [Response.frame, Response.complete, Response.bytes, bulk] using hreply

/-- A head that brings its own line end is left as it is. -/
theorem frame_of_crlf (head : Bytes) :
    Response.frame { head := head ++ CRLF } = head ++ CRLF := by
  simp [Response.frame, Response.complete, Response.bytes]

/-! ## The option that stops SET -/

/-- The first option that is neither an expiry with a positive amount nor, in the first place, a
number. -/
def unsupported (first : Bool) : List Bytes → Option Bytes
  | [] => none
  | text :: rest =>
    if lowercase text = ascii "ex" ∨ lowercase text = ascii "px" then
      match rest with
      | [] => none
      | amount :: rest =>
        if ∃ n ∈ parseInt amount, 0 < n then unsupported false rest else none
    else if first ∧ (parseInt text).isSome then unsupported false rest
    else some text

theorem unsupported_other {first : Bool} {text : Bytes}
    (h : ¬ (lowercase text = ascii "ex" ∨ lowercase text = ascii "px")) (rest : List Bytes) :
    unsupported first (text :: rest) =
      if first ∧ (parseInt text).isSome then unsupported false rest else some text := by
  rw [unsupported.eq_def]
  exact if_neg h

/-- The result of the loop, given the option it stops at. -/
def Scanned (stop : Option Bytes) (result : Except Bytes Int) : Prop :=
  match stop with
  | some opt => result = .error (ascii "-ERR unsupported SET option: " ++ opt)
  | none => (∃ ttl, result = .ok ttl) ∨ result = .error (ascii "-ERR syntax error") ∨
      result = .error (ascii "-ERR invalid expire value")

theorem scanned_scanOptions (first sawExpiry : Bool) (ttl : Int) (options : List Bytes)
    (hfirst : first = true → sawExpiry = false) :
    Scanned (unsupported first options) (scanOptions first sawExpiry ttl options) := by
  fun_induction scanOptions first sawExpiry ttl options with
  | case1 first sawExpiry ttl => exact Or.inl ⟨ttl, rfl⟩
  | case2 first sawExpiry ttl text opt hopt =>
    rw [unsupported, if_pos hopt]
    exact Or.inr (Or.inl rfl)
  | case3 first sawExpiry ttl text opt hopt amount rest hamount =>
    rw [unsupported, if_pos hopt]
    simp [hamount, Scanned]
  | case4 first sawExpiry ttl text opt hopt amount rest n hamount hn =>
    rw [unsupported, if_pos hopt]
    simp [hamount, Scanned, Int.not_lt.mpr hn]
  | case5 first sawExpiry ttl text opt hopt amount rest n hamount hn ttl' ih =>
    rw [unsupported, if_pos hopt]
    simpa [hamount, Int.not_le.mp hn] using ih
  | case6 first sawExpiry ttl text rest opt hopt n hlegacy ih =>
    have hn : first = true ∧ parseInt text = some n := by grind
    rw [unsupported_other hopt, if_pos ⟨hn.1, by simp [hn.2]⟩]
    exact ih (by simp)
  | case7 first sawExpiry ttl text rest opt hopt hlegacy =>
    have hn : ¬ (first = true ∧ (parseInt text).isSome = true) := by grind
    rw [unsupported_other hopt, if_neg hn]
    rfl

/-! ## Echoed texts -/

/-- What fits on a line after an error's own text: a line, with its line end or without. -/
def EchoSafe (text : Bytes) : Prop := OneLine text ∨ ∃ line, text = line ++ CRLF ∧ OneLine line

/-- The option that `SET` echoes: the one it stops at, if it comes to the options at all. -/
def setEcho (cfg : Config) : List Bytes → Option Bytes
  | key :: value :: options =>
    if key.length ≤ Storage.kMaxKeySize ∧ value.length ≤ cfg.maxValueSize then
      unsupported true options
    else none
  | _ => none

/-- The command is answered with an echo that is not safe. -/
def Echoes (cfg : Config) (verb : Bytes) (args : List Bytes) : Prop :=
  (classify (verb :: args)).type = .unknown ∧ ¬ OneLine verb ∨
    (classify (verb :: args)).type = .set ∧ ∃ opt, setEcho cfg args = some opt ∧ ¬ EchoSafe opt

theorem oneLine_append {text more : Bytes} (h : OneLine text) :
    OneLine (text ++ more) ↔ OneLine more := by
  unfold OneLine at *
  simp [h.1, h.2]

/-- A line end at the end of a text is in its last part, if the first part has none. -/
theorem crlf_suffix_append {text more : Bytes} (h : OneLine text) :
    CRLF <:+ text ++ more ↔ CRLF <:+ more := by
  refine ⟨fun hs => ?_, fun hs => hs.trans (List.suffix_append _ _)⟩
  obtain ⟨before, heq⟩ := hs
  obtain ⟨mid, rfl, hmid⟩ | ⟨mid, -, hmid⟩ := List.append_eq_append_iff.mp heq
  · cases mid with
    | nil => exact ⟨[], hmid⟩
    | cons c mid =>
      have hc : CR = c := (List.cons.inj hmid).1
      exact absurd (by simp [← hc]) h.1
  · exact ⟨mid, hmid.symm⟩

theorem frame_of_no_crlf {head : Bytes} (h : ¬ CRLF <:+ head) :
    Response.frame { head := head } = head ++ CRLF := by
  simp [Response.frame, Response.complete, Response.bytes, h]

/-- An echo after an error's own text is one reply when it is safe. -/
theorem isReply_echo_iff {tag : UInt8} {text : Bytes} (htag : IsTag tag)
    (htext : OneLine (tag :: text)) (opt : Bytes) :
    IsReply (Response.frame { head := tag :: text ++ opt }) ↔ EchoSafe opt := by
  have htail : OneLine text := by
    unfold OneLine at *
    grind
  by_cases hs : CRLF <:+ opt
  · obtain ⟨line, rfl⟩ := hs
    rw [← List.append_assoc, frame_of_crlf, List.cons_append, isReply_line_iff htag,
      oneLine_append htail]
    refine ⟨fun hline => Or.inr ⟨line, rfl, hline⟩, ?_⟩
    rintro (hall | ⟨line', heq, hline⟩)
    · exact absurd (by simp) hall.1
    · rwa [List.append_cancel_right heq]
  · have hhead : ¬ CRLF <:+ tag :: text ++ opt := fun h => hs ((crlf_suffix_append htext).mp h)
    rw [frame_of_no_crlf hhead, List.cons_append, isReply_line_iff htag, oneLine_append htail]
    refine ⟨Or.inl, ?_⟩
    rintro (hall | ⟨line, rfl, -⟩)
    · exact hall
    · exact absurd (List.suffix_append _ _) hs

/-! ## All responses -/

/-- A head that is a line of its own. -/
def IsLine : Bytes → Prop
  | [] => False
  | tag :: text => IsTag tag ∧ OneLine text

instance : DecidablePred IsLine
  | [] => inferInstanceAs (Decidable False)
  | tag :: text => inferInstanceAs (Decidable (IsTag tag ∧ OneLine text))

theorem isReply_of_isLine {head : Bytes} (h : IsLine head) :
    IsReply (Response.frame { head := head }) := by
  cases head with
  | nil => exact h.elim
  | cons tag text => exact isReply_frame_line h.1 h.2

variable (cfg : Config) (env : Env) (fault : Option Fault) (s : Storage)

theorem isReply_reply {head : String} (h : IsLine (ascii head)) :
    IsReply (reply head s).response.frame := isReply_of_isLine h

theorem isReply_storeLogged (key text : Bytes) (ttl : Int) :
    IsReply (storeLogged cfg env fault s key text ttl).response.frame := by
  unfold storeLogged
  split
  · exact isReply_reply s (by decide)
  · dsimp only
    split <;> exact isReply_of_isLine (by decide)

theorem isReply_unsupported_iff (opt : Bytes) :
    IsReply (Response.frame { head := ascii "-ERR unsupported SET option: " ++ opt }) ↔
      EchoSafe opt := by
  have hhead : ascii "-ERR unsupported SET option: " =
      45 :: ascii "ERR unsupported SET option: " := rfl
  rw [hhead]
  exact isReply_echo_iff (by decide) (by decide) opt

theorem isReply_executeSet_iff (args : List Bytes) :
    IsReply (executeSet cfg env fault s args).response.frame ↔
      ¬ ∃ opt, setEcho cfg args = some opt ∧ ¬ EchoSafe opt := by
  match args with
  | [] | [_] => exact iff_of_true (isReply_reply s (by decide)) (by simp [setEcho])
  | key :: value :: options =>
    rw [executeSet, setEcho]
    by_cases hkey : key.length > Storage.kMaxKeySize
    · rw [if_pos hkey, if_neg (by omega)]
      exact iff_of_true (isReply_reply s (by decide)) (by simp)
    by_cases hvalue : value.length > cfg.maxValueSize
    · rw [if_neg hkey, if_pos hvalue, if_neg (by omega)]
      exact iff_of_true (isReply_reply s (by decide)) (by simp)
    rw [if_neg hkey, if_neg hvalue, if_pos (by omega)]
    have hscan := scanned_scanOptions true false 0 options (by simp)
    cases hopt : unsupported true options with
    | some opt =>
      have hecho := isReply_unsupported_iff opt
      rw [hopt, Scanned] at hscan
      rw [hscan]
      simpa using hecho
    | none =>
      rw [hopt] at hscan
      refine iff_of_true ?_ (by simp)
      rcases hscan with ⟨ttl, hscan⟩ | hscan | hscan
      · rw [hscan]
        dsimp only
        split_ifs
        · exact isReply_storeLogged cfg env fault s key value ttl
        · exact isReply_reply s (by decide)
      · rw [hscan]
        exact isReply_of_isLine (by decide)
      · rw [hscan]
        exact isReply_of_isLine (by decide)

theorem isReply_unknown_iff (verb : Bytes) :
    IsReply (Response.frame { head := ascii "-ERR unknown command '" ++ verb ++ ascii "'" }) ↔
      OneLine verb := by
  have hhead : ¬ CRLF <:+ ascii "-ERR unknown command '" ++ verb ++ ascii "'" := by
    rintro ⟨text, heq⟩
    have hlast := congrArg List.getLast? heq
    rw [show ascii "'" = [39] from rfl, List.getLast?_concat, List.getLast?_append] at hlast
    exact absurd (Option.some.inj hlast) (by decide)
  have hline := isReply_line_iff (by decide : IsTag 45)
    (ascii "ERR unknown command '" ++ (verb ++ ascii "'"))
  rw [frame_of_no_crlf hhead, List.append_assoc (ascii "-ERR unknown command '")]
  refine Iff.trans hline ((oneLine_append (by decide)).trans ?_)
  have hquote : OneLine (ascii "'") := by decide
  unfold OneLine at *
  simp [hquote.1, hquote.2]

/-- A command with a verb is answered with exactly one reply, unless it echoes an unknown verb or an
unsupported option that does not fit on a line. -/
theorem isReply_iff (verb : Bytes) (args : List Bytes) (hverb : verb ≠ []) :
    IsReply (executeCommand cfg env fault (classify (verb :: args)) s).response.frame ↔
      ¬ Echoes cfg verb args := by
  have hargs : (classify (verb :: args)).args = args := rfl
  have hcmd : (classify (verb :: args)).verb = verb := rfl
  unfold executeCommand Echoes
  cases htype : (classify (verb :: args)).type with
  | set =>
    simp only [hargs, isReply_executeSet_iff]
    simp
  | unknown =>
    simp only [hcmd, if_neg hverb, isReply_unknown_iff]
    simp
  | ping =>
    refine iff_of_true ?_ (by simp)
    cases args with
    | nil => exact isReply_reply s (by decide)
    | cons text args =>
      simp only [hargs]
      split_ifs
      · exact isReply_reply s (by decide)
      · exact isReply_bulk text
  | select => exact iff_of_true (isReply_reply s (by decide)) (by simp)
  | get =>
    refine iff_of_true ?_ (by simp)
    cases args with
    | nil => exact isReply_reply s (by decide)
    | cons key args =>
      simp only [hargs]
      split
      · exact .null
      · exact isReply_bulk _
  | del =>
    refine iff_of_true ?_ (by simp)
    cases args with
    | nil => exact isReply_reply s (by decide)
    | cons key args =>
      simp only [hargs]
      split
      · exact isReply_of_isLine (by decide)
      · exact isReply_reply _ (by decide)
  | metrics =>
    refine iff_of_true ?_ (by simp)
    dsimp only
    rw [frame_of_crlf]
    exact .bulk _

theorem isReply_iff_ping :
    IsReply (executeCommand ⟨true, 8, fun _ => []⟩ ⟨0, 1, 0⟩ none
      (classify [ascii "ping", ascii "\r\n"]) (Storage.init 1 1024 8)).response.frame ↔
      ¬ Echoes ⟨true, 8, fun _ => []⟩ (ascii "ping") [ascii "\r\n"] :=
  isReply_iff _ _ _ _ _ _ (by decide)

/-- An unknown verb with a line end in it is answered with two replies. -/
theorem not_isReply_unknown :
    let verb := ascii "X\r\n+OK"
    ¬ IsReply (executeCommand ⟨true, 8, fun _ => []⟩ ⟨0, 1, 0⟩ none (classify [verb])
      (Storage.init 1 1024 8)).response.frame := by
  intro verb
  have hiff := isReply_unknown_iff verb
  exact fun h => absurd (hiff.mp h) (by decide)

end Server

end PolyCache
