import PolyCache.Protocol.Grammar

/-!
# Streams of frames

What a fresh parser returns does not depend on how a stream is cut into chunks, and a stream of
encoded commands comes back as these commands.
-/

namespace PolyCache

namespace Protocol

namespace Parser

theorem fresh_init (maxBulkLen : Nat) : (init maxBulkLen).Fresh := ⟨rfl, rfl⟩

/-! ## Cuts -/

/-- The commands and the parser do not depend on the cuts, and when the last byte of a frame has
been fed, its command has been returned. -/
theorem feedAll_of_cuts (alloc : Nat → Bool) (maxBulkLen : Nat) :
    (∀ chunks₁ chunks₂ : List Bytes, chunks₁.flatten = chunks₂.flatten →
      let fed₁ := (init maxBulkLen).feedAll alloc chunks₁
      let fed₂ := (init maxBulkLen).feedAll alloc chunks₂
      fed₁.commands = fed₂.commands ∧ (fed₁.parser.state = .failed ↔ fed₂.parser.state = .failed) ∧
        fed₁.parser.error = fed₂.parser.error) ∧
    ∀ (chunks : List Bytes) (frames : List (List Bytes)) (stream rest : Bytes),
      Frames maxBulkLen frames stream → chunks.flatten = stream ++ rest →
      (∀ args ∈ frames, ∀ arg ∈ args, alloc arg.length = true) →
      frames.map classify <+: ((init maxBulkLen).feedAll alloc chunks).commands := by
  have hinit := fresh_init maxBulkLen
  constructor
  · intro chunks₁ chunks₂ hcut
    have h₁ := feedAll_eq alloc hinit.resting chunks₁
    have h₂ := feedAll_eq alloc hinit.resting chunks₂
    rw [hcut, ← h₂, Fed.outcome, Fed.outcome, Prod.mk.injEq] at h₁
    exact ⟨h₁.1, by rw [h₁.2], by rw [h₁.2]⟩
  · intro chunks frames stream rest hframes hchunks halloc
    obtain ⟨p', -, -, hfeed⟩ := feed_frames hinit hframes halloc rest
    have hall := congrArg Prod.fst (feedAll_eq alloc hinit.resting chunks)
    rw [hchunks, hfeed] at hall
    exact ⟨_, hall.symm⟩

/-- A ping in three chunks, cut inside the header and inside the payload. -/
theorem cuts_ping :
    let stream := ascii "*1\r\n$4\r\nPING\r\n"
    let chunks := [ascii "*1\r\n$4\r", ascii "\nPI", ascii "NG\r\n"]
    let fed := (init 8).feedAll (fun _ => true) chunks
    fed.commands = ((init 8).feedAll (fun _ => true) [stream]).commands ∧
      [classify [ascii "PING"]] <+: fed.commands := by
  intro stream chunks fed
  have hbulk : IsBulk 8 (ascii "PING") (ascii "$4\r\nPING\r\n") :=
    ⟨⟨ascii "$4\r\n", CRLF, by decide,
      ⟨[52], CRLF, by decide, Or.inr rfl, by decide +kernel⟩, Or.inr rfl⟩, by decide⟩
  have hframe : IsFrame 8 [ascii "PING"] stream :=
    ⟨⟨ascii "*1\r\n", ascii "$4\r\nPING\r\n" ++ [], by decide,
      ⟨[49], CRLF, by decide, Or.inr rfl, by decide +kernel⟩, .cons hbulk .nil⟩, by decide⟩
  exact ⟨((feedAll_of_cuts (fun _ => true) 8).1 chunks [stream] (by decide)).1,
    (feedAll_of_cuts (fun _ => true) 8).2 chunks [[ascii "PING"]] (stream ++ []) []
      (.cons hframe .nil) (by decide) (fun _ _ _ _ => rfl)⟩

/-! ## The canonical encoding -/

def encodeHeader (tag : UInt8) (n : Nat) : Bytes := tag :: Decimal.numeral n ++ CRLF

def encodeBulk (payload : Bytes) : Bytes := encodeHeader 36 payload.length ++ payload ++ CRLF

def encode (args : List Bytes) : Bytes := encodeHeader 42 args.length ++ args.flatMap encodeBulk

theorem isHeader_encodeHeader (tag : UInt8) {n : Nat} (h : n < 10 ^ 18) :
    IsHeader tag n (encodeHeader tag n) :=
  ⟨Decimal.numeral n, CRLF, rfl, Or.inr rfl, Decimal.numeral_ne_nil n,
    Decimal.length_numeral_le (by omega) h, fun _ => Decimal.isDigit_of_mem_numeral,
    Decimal.value_numeral n⟩

theorem bulks_encode {maxBulkLen : Nat} {args : List Bytes}
    (h : ∀ arg ∈ args, arg.length ≤ maxBulkLen ∧ arg.length < 10 ^ 18) :
    Bulks maxBulkLen args (args.flatMap encodeBulk) := by
  induction args with
  | nil => exact .nil
  | cons payload args ih =>
    obtain ⟨hmax, hdigits⟩ := h payload List.mem_cons_self
    rw [List.flatMap_cons]
    refine .cons ⟨⟨_, CRLF, rfl, isHeader_encodeHeader 36 hdigits, Or.inr rfl⟩, hmax⟩ ?_
    exact ih fun arg harg => h arg (List.mem_cons_of_mem _ harg)

theorem isFrame_encode {maxBulkLen : Nat} {args : List Bytes} (hcount : args.length ≤ kMaxArgs)
    (h : ∀ arg ∈ args, arg.length ≤ maxBulkLen ∧ arg.length < 10 ^ 18) :
    IsFrame maxBulkLen args (encode args) := by
  refine ⟨⟨_, _, rfl, isHeader_encodeHeader 42 ?_, bulks_encode h⟩, hcount⟩
  exact lt_of_le_of_lt hcount (by decide)

theorem frames_encode {maxBulkLen : Nat} {frames : List (List Bytes)}
    (hcount : ∀ args ∈ frames, args.length ≤ kMaxArgs)
    (h : ∀ args ∈ frames, ∀ arg ∈ args, arg.length ≤ maxBulkLen ∧ arg.length < 10 ^ 18) :
    Frames maxBulkLen frames (frames.flatMap encode) := by
  induction frames with
  | nil => exact .nil
  | cons args frames ih =>
    rw [List.flatMap_cons]
    refine .cons (isFrame_encode (hcount args List.mem_cons_self) (h args List.mem_cons_self)) ?_
    exact ih (fun args hargs => hcount args (List.mem_cons_of_mem _ hargs))
      fun args hargs => h args (List.mem_cons_of_mem _ hargs)

/-! ## The command a frame spells -/

def IsUpper (c : UInt8) : Prop := 65 ≤ c ∧ c ≤ 90

/-- Equal bytes, or the two cases of an ASCII letter. -/
def SameLetter (c d : UInt8) : Prop := c = d ∨ IsUpper c ∧ d = c + 32 ∨ IsUpper d ∧ c = d + 32

def EqIgnoreCase (text text' : Bytes) : Prop := List.Forall₂ SameLetter text text'

/-- The type that goes with a verb. -/
def IsTypeOf (verb : Bytes) (type : CommandType) : Prop :=
  (∀ entry ∈ verbs, type = entry.2 ↔ EqIgnoreCase verb entry.1) ∧
    (type = .unknown ↔ ∀ entry ∈ verbs, ¬ EqIgnoreCase verb entry.1)

/-- The command that a list of arguments spells. -/
def Spells : List Bytes → Command → Prop
  | [], command => command.type = .unknown ∧ command.verb = [] ∧ command.args = []
  | verb :: args, command =>
    command.verb = verb ∧ command.args = args ∧ IsTypeOf verb command.type

theorem toUpper_eq_iff {c d : UInt8} (hd : IsUpper d) : toUpper c = d ↔ SameLetter c d := by
  unfold toUpper SameLetter IsUpper at *
  grind

theorem map_toUpper_eq_iff {verb name : Bytes} (hname : ∀ d ∈ name, IsUpper d) :
    verb.map toUpper = name ↔ EqIgnoreCase verb name := by
  unfold EqIgnoreCase
  induction name generalizing verb with
  | nil => simp
  | cons d name ih =>
    cases verb with
    | nil => simp
    | cons c verb =>
      rw [List.map_cons, List.cons.injEq, List.forall₂_cons,
        toUpper_eq_iff (hname d List.mem_cons_self),
        ih fun d hd => hname d (List.mem_cons_of_mem _ hd)]

instance : DecidablePred IsUpper := fun c => inferInstanceAs (Decidable (65 ≤ c ∧ c ≤ 90))

theorem isUpper_of_mem_verbs : ∀ entry ∈ verbs, ∀ d ∈ entry.1, IsUpper d := by
  decide +kernel

theorem type_eq_iff_of_mem_verbs :
    ∀ entry ∈ verbs, ∀ entry' ∈ verbs, entry.2 = entry'.2 ↔ entry.1 = entry'.1 := by decide

theorem ne_unknown_of_mem_verbs : ∀ entry ∈ verbs, entry.2 ≠ .unknown := by decide

theorem isTypeOf_lookup (verb : Bytes) :
    IsTypeOf verb ((verbs.lookup (verb.map toUpper)).getD .unknown) := by
  have hname : ∀ entry ∈ verbs, (EqIgnoreCase verb entry.1 ↔ verb.map toUpper = entry.1) :=
    fun entry hentry => (map_toUpper_eq_iff (isUpper_of_mem_verbs entry hentry)).symm
  cases hlookup : verbs.lookup (verb.map toUpper) with
  | none =>
    have hnone : ∀ entry ∈ verbs, ¬ EqIgnoreCase verb entry.1 := by
      intro entry hentry heq
      have hne := List.lookup_eq_none_iff.mp hlookup entry hentry
      simp [(hname entry hentry).mp heq] at hne
    refine ⟨fun entry hentry => ?_, iff_of_true rfl hnone⟩
    exact iff_of_false (ne_unknown_of_mem_verbs entry hentry).symm (hnone entry hentry)
  | some type =>
    have hmem : (verb.map toUpper, type) ∈ verbs := by
      obtain ⟨before, after, hverbs, -⟩ := List.lookup_eq_some_iff.mp hlookup
      simp [hverbs]
    refine ⟨fun entry hentry => ?_, iff_of_false (ne_unknown_of_mem_verbs _ hmem) fun hall => ?_⟩
    · rw [hname entry hentry]
      exact type_eq_iff_of_mem_verbs _ hmem entry hentry
    · exact hall _ hmem ((hname _ hmem).mpr rfl)

theorem spells_classify (args : List Bytes) : Spells args (classify args) := by
  cases args with
  | nil => exact ⟨rfl, rfl, rfl⟩
  | cons verb args => exact ⟨rfl, rfl, isTypeOf_lookup verb⟩

/-! ## The round trip -/

/-- Encoded frames, one after the other, come back as one command each, and leave the parser
between two frames. -/
theorem feed_encode (alloc : Nat → Bool) (maxBulkLen : Nat) (frames : List (List Bytes))
    (hcount : ∀ args ∈ frames, args.length ≤ kMaxArgs)
    (hsize : ∀ args ∈ frames, ∀ arg ∈ args, arg.length ≤ maxBulkLen ∧ arg.length < 10 ^ 18)
    (halloc : ∀ n ≤ maxBulkLen, alloc n = true) :
    let fed := (init maxBulkLen).feed alloc (frames.flatMap encode)
    List.Forall₂ Spells frames fed.commands ∧ fed.rest = [] ∧ fed.parser.Fresh := by
  obtain ⟨p', hp', -, hfeed⟩ := feed_frames (fresh_init maxBulkLen) (frames_encode hcount hsize)
    (fun args hargs arg harg => halloc _ (hsize args hargs arg harg).1) []
  rw [List.append_nil] at hfeed
  rw [hfeed]
  refine ⟨?_, rfl, hp'⟩
  simp only [feed_nil, List.append_nil, List.forall₂_map_right_iff]
  exact List.forall₂_same.mpr fun args _ => spells_classify args

/-- An empty frame, then a command with a binary argument that looks like a frame. -/
theorem feed_encode_get :
    let frames := [[], [ascii "get", ascii "*1\r\n$0"], [[]]]
    let fed := (init 8).feed (fun _ => true) (frames.flatMap encode)
    List.Forall₂ Spells frames fed.commands ∧ fed.rest = [] ∧ fed.parser.Fresh :=
  feed_encode (fun _ => true) 8 [[], [ascii "get", ascii "*1\r\n$0"], [[]]] (by decide) (by decide)
    fun _ _ => rfl

end Parser

end Protocol

end PolyCache
