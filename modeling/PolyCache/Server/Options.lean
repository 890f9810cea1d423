import PolyCache.Server.Logged
import PolyCache.Storage.Effects

/-!
# The options of SET

What follows the key and the value of a `SET`: a plain time to live, if any, and then any number of
`EX` and `PX` pairs, of which the last one counts. The loop over the options accepts these lists and
no others.
-/

namespace PolyCache

open Protocol

namespace Server

/-! ## Numbers -/

/-- The texts that stand for an `int`. -/
inductive IsInt : Bytes → Int → Prop where
  | unsigned {digits : Bytes} (nonempty : digits ≠ []) (all : ∀ c ∈ digits, Decimal.IsDigit c)
      (lt : Decimal.value digits < 2 ^ 31) : IsInt digits (Decimal.value digits)
  | plus {digits : Bytes} (nonempty : digits ≠ []) (all : ∀ c ∈ digits, Decimal.IsDigit c)
      (lt : Decimal.value digits < 2 ^ 31) : IsInt (43 :: digits) (Decimal.value digits)
  | minus {digits : Bytes} (nonempty : digits ≠ []) (all : ∀ c ∈ digits, Decimal.IsDigit c)
      (le : Decimal.value digits ≤ 2 ^ 31) : IsInt (45 :: digits) (-Decimal.value digits)

variable {text : Bytes} {n : Int}

theorem IsInt.lt (h : IsInt text n) : n < 2 ^ 31 := by
  cases h with
  | unsigned _ _ lt | plus _ _ lt => exact_mod_cast lt
  | minus => omega

theorem parseInt_of_isInt (h : IsInt text n) : parseInt text = some n := by
  have hall : ∀ digits : Bytes, (∀ c ∈ digits, Decimal.IsDigit c) →
      (digits.all fun c => Decimal.IsDigit c) = true :=
    fun digits h => List.all_eq_true.mpr fun c hc => decide_eq_true (h c hc)
  cases h with
  | unsigned nonempty all lt =>
    cases text with
    | nil => exact absurd rfl nonempty
    | cons c rest =>
      have hdigit := Decimal.isDigit_iff.mp (all c List.mem_cons_self)
      have hplus : c ≠ 43 := by rintro rfl; exact absurd hdigit (by decide)
      have hminus : c ≠ 45 := by rintro rfl; exact absurd hdigit (by decide)
      have hbound : -2 ^ 31 ≤ (Decimal.value (c :: rest) : Int) ∧
          (Decimal.value (c :: rest) : Int) < 2 ^ 31 := by omega
      simp only [parseInt, hplus, hminus, or_self, if_false, nonempty, hall _ all,
        if_true]
      rw [if_pos hbound]
  | @plus digits nonempty all lt =>
    have hbound : -2 ^ 31 ≤ (Decimal.value digits : Int) ∧
        (Decimal.value digits : Int) < 2 ^ 31 := by omega
    have hsign : ¬ (43 : UInt8) = 45 := by decide
    simp only [parseInt, hsign, or_true, if_true, nonempty, if_false, hall _ all]
    rw [if_pos hbound]
  | @minus digits nonempty all le =>
    have hbound : -2 ^ 31 ≤ -(Decimal.value digits : Int) ∧
        -(Decimal.value digits : Int) < 2 ^ 31 := by omega
    simp only [parseInt, true_or, if_true, nonempty, if_false, hall _ all]
    rw [if_pos hbound]

theorem isInt_of_parseInt (h : parseInt text = some n) : IsInt text n := by
  cases text with
  | nil => exact nomatch h
  | cons c rest =>
    unfold parseInt at h
    dsimp only at h
    split_ifs at h with hsign hnil hall hminus hbound hbound hnil hall hminus hbound hbound
    · subst hminus
      rw [← Option.some.inj h]
      have hall : ∀ c ∈ rest, Decimal.IsDigit c := by simpa using hall
      exact .minus hnil hall (by omega)
    · obtain rfl : c = 43 := hsign.resolve_left hminus
      rw [← Option.some.inj h]
      have hall : ∀ c ∈ rest, Decimal.IsDigit c := by simpa using hall
      exact .plus hnil hall (by omega)
    · exact absurd (Or.inl hminus) hsign
    · rw [← Option.some.inj h]
      have hall : ∀ d ∈ c :: rest, Decimal.IsDigit d := by simpa using hall
      exact .unsigned (List.cons_ne_nil _ _) hall (by omega)

/-- `parse_int` takes the texts of the ints, and takes them for what they are. -/
theorem parseInt_eq_some_iff : parseInt text = some n ↔ IsInt text n :=
  ⟨isInt_of_parseInt, parseInt_of_isInt⟩

/-! ## The grammar -/

/-- `EX` in any letter case. -/
def IsEX (text : Bytes) : Prop := text ∈ [ascii "EX", ascii "Ex", ascii "eX", ascii "ex"]

/-- `PX` in any letter case. -/
def IsPX (text : Bytes) : Prop := text ∈ [ascii "PX", ascii "Px", ascii "pX", ascii "px"]

instance : DecidablePred IsEX := fun text =>
  inferInstanceAs (Decidable (text ∈ [ascii "EX", ascii "Ex", ascii "eX", ascii "ex"]))

instance : DecidablePred IsPX := fun text =>
  inferInstanceAs (Decidable (text ∈ [ascii "PX", ascii "Px", ascii "pX", ascii "px"]))

/-- A list of pairs with the seconds of its last pair, milliseconds being rounded up. -/
inductive Pairs : List Bytes → Option Int → Prop where
  | nil : Pairs [] none
  | ex {unit amount : Bytes} {n : Int} {rest : List Bytes} {last : Option Int} (unit_eq : IsEX unit)
      (number : IsInt amount n) (pos : 1 ≤ n) (pairs : Pairs rest last) :
      Pairs (unit :: amount :: rest) (some (last.getD n))
  | px {unit amount : Bytes} {n seconds : Int} {rest : List Bytes} {last : Option Int}
      (unit_eq : IsPX unit) (number : IsInt amount n) (pos : 1 ≤ n)
      (enough : n ≤ 1000 * seconds) (least : 1000 * seconds < n + 1000)
      (pairs : Pairs rest last) : Pairs (unit :: amount :: rest) (some (last.getD seconds))

/-- The options of a `SET`, with its plain time to live and that of its last pair. -/
inductive Options : List Bytes → Option Int → Option Int → Prop where
  | pairs {options : List Bytes} {last : Option Int} (pairs : Pairs options last) :
      Options options none last
  | plain {text : Bytes} {n : Int} {rest : List Bytes} {last : Option Int} (number : IsInt text n)
      (pairs : Pairs rest last) : Options (text :: rest) (some n) last

/-- A pair sets at least a second, and seconds that are an `int`. -/
theorem Pairs.bounds {options : List Bytes} {seconds : Int} (h : Pairs options (some seconds)) :
    1 ≤ seconds ∧ seconds < 2 ^ 31 := by
  generalize hlast : some seconds = last at h
  induction h generalizing seconds with
  | nil => exact nomatch hlast
  | @ex unit amount n rest last unit_eq number pos pairs ih =>
    cases last with
    | none =>
      obtain rfl : seconds = n := Option.some.inj hlast
      exact ⟨pos, number.lt⟩
    | some later => exact ih hlast
  | @px unit amount n seconds' rest last unit_eq number pos enough least pairs ih =>
    cases last with
    | none =>
      obtain rfl : seconds = seconds' := Option.some.inj hlast
      have hlt := number.lt
      constructor <;> omega
    | some later => exact ih hlast

/-! ## The loop -/

/-- A letter and its capital are what `tolower` takes to the letter. -/
theorem toLower_eq_iff {c letter : UInt8} (h : 97 ≤ letter ∧ letter ≤ 122) :
    toLower c = letter ↔ c = letter - 32 ∨ c = letter := by
  unfold toLower
  split_ifs <;> grind

theorem lowercase_pair_iff {a b : UInt8} (ha : 97 ≤ a ∧ a ≤ 122) (hb : 97 ≤ b ∧ b ≤ 122) :
    lowercase text = [a, b] ↔ text ∈ [[a - 32, b - 32], [a - 32, b], [a, b - 32], [a, b]] := by
  match text with
  | [] | [_] | _ :: _ :: _ :: _ => simp [lowercase]
  | [c, d] =>
    simp only [lowercase, List.map_cons, List.map_nil, List.cons.injEq, and_true,
      toLower_eq_iff ha, toLower_eq_iff hb, List.mem_cons, List.not_mem_nil, or_false]
    tauto

theorem lowercase_eq_ex_iff : lowercase text = ascii "ex" ↔ IsEX text :=
  lowercase_pair_iff (by decide) (by decide)

theorem lowercase_eq_px_iff : lowercase text = ascii "px" ↔ IsPX text :=
  lowercase_pair_iff (by decide) (by decide)

/-- The loop takes pairs wherever it stands, and the last one counts. -/
theorem scanOptions_pairs {options : List Bytes} {last : Option Int} (h : Pairs options last)
    (first sawExpiry : Bool) (ttl : Int) :
    scanOptions first sawExpiry ttl options = .ok (last.getD ttl) := by
  induction h generalizing first sawExpiry ttl with
  | nil => rfl
  | @ex unit amount n rest last unit_eq number pos pairs ih =>
    have hopt := lowercase_eq_ex_iff.mpr unit_eq
    have hne : ¬ ascii "ex" = ascii "px" := by decide
    rw [scanOptions, hopt, if_pos (Or.inl rfl)]
    dsimp only
    rw [parseInt_eq_some_iff.mpr number]
    dsimp only
    rw [if_neg (by omega), if_neg hne, ih]
    rfl
  | @px unit amount n seconds rest last unit_eq number pos enough least pairs ih =>
    have hopt := lowercase_eq_px_iff.mpr unit_eq
    have hround : (n / 1000 + if n % 1000 ≠ 0 then 1 else 0) = seconds := by
      split_ifs <;> omega
    rw [scanOptions, hopt, if_pos (Or.inr rfl)]
    dsimp only
    rw [parseInt_eq_some_iff.mpr number]
    dsimp only
    rw [if_neg (by omega), if_pos rfl, hround, ih]
    rfl

/-- Where the first option is no unit, only a number will do. -/
theorem scanOptions_first (h : ¬ (lowercase text = ascii "ex" ∨ lowercase text = ascii "px"))
    (ttl : Int) (rest : List Bytes) :
    scanOptions true false ttl (text :: rest) = match parseInt text with
      | some n => scanOptions false false n rest
      | none => .error (ascii "-ERR unsupported SET option: " ++ text) := by
  rw [scanOptions.eq_def]
  exact if_neg h

theorem scanOptions_options {options : List Bytes} {plain last : Option Int}
    (h : Options options plain last) :
    scanOptions true false 0 options = .ok (last.getD (plain.getD 0)) := by
  cases h with
  | pairs pairs => exact scanOptions_pairs pairs true false 0
  | @plain text n rest last number pairs =>
    have hnumber := parseInt_eq_some_iff.mpr number
    have hopt : ¬ (lowercase text = ascii "ex" ∨ lowercase text = ascii "px") := by
      rw [lowercase_eq_ex_iff, lowercase_eq_px_iff]
      have hword : ∀ word ∈ [ascii "EX", ascii "Ex", ascii "eX", ascii "ex", ascii "PX",
          ascii "Px", ascii "pX", ascii "px"], parseInt word = none := by decide
      rintro (hunit | hunit)
      · rw [hword text (List.mem_append_left _ hunit)] at hnumber
        exact nomatch hnumber
      · rw [hword text (List.mem_append_right [_, _, _, _] hunit)] at hnumber
        exact nomatch hnumber
    rw [scanOptions_first hopt, hnumber]
    exact scanOptions_pairs pairs false false n

/-- Away from the first option the loop takes nothing but pairs. -/
theorem pairs_of_scanOptions {first sawExpiry : Bool} {ttl seconds : Int} {options : List Bytes}
    (hlate : (first && !sawExpiry) = false)
    (h : scanOptions first sawExpiry ttl options = .ok seconds) : ∃ last, Pairs options last := by
  fun_induction scanOptions first sawExpiry ttl options with
  | case1 first sawExpiry ttl => exact ⟨none, .nil⟩
  | case2 | case3 | case4 => cases h
  | case5 first sawExpiry ttl text opt hopt amount rest n hamount hn ttl' ih =>
    obtain ⟨last, hpairs⟩ := ih rfl h
    have hnumber := parseInt_eq_some_iff.mp hamount
    obtain hunit | hunit := hopt
    · exact ⟨_, .ex (lowercase_eq_ex_iff.mp hunit) hnumber (by omega) hpairs⟩
    · have hpair : Pairs (text :: amount :: rest) (some (last.getD ((n + 999) / 1000))) :=
        .px (lowercase_eq_px_iff.mp hunit) hnumber (by omega) (by omega) (by omega) hpairs
      exact ⟨_, hpair⟩
  | case6 first sawExpiry ttl text rest opt hopt n hplain ih =>
    rw [hlate] at hplain
    cases hplain
  | case7 => cases h

theorem options_of_scanOptions {seconds : Int} {options : List Bytes}
    (h : scanOptions true false 0 options = .ok seconds) :
    ∃ plain last, Options options plain last := by
  match options with
  | [] => exact ⟨none, none, .pairs .nil⟩
  | text :: rest =>
    by_cases hopt : lowercase text = ascii "ex" ∨ lowercase text = ascii "px"
    · -- the flags make no difference to a pair
      have hlate : scanOptions false true 0 (text :: rest) = .ok seconds := by
        rw [scanOptions.eq_def] at h ⊢
        dsimp only at h ⊢
        rw [if_pos hopt] at h ⊢
        exact h
      obtain ⟨last, hpairs⟩ := pairs_of_scanOptions rfl hlate
      exact ⟨none, last, .pairs hpairs⟩
    · rw [scanOptions_first hopt] at h
      cases hnumber : parseInt text with
      | none =>
        rw [hnumber] at h
        cases h
      | some n =>
        rw [hnumber] at h
        obtain ⟨last, hpairs⟩ := pairs_of_scanOptions rfl h
        exact ⟨some n, last, .plain (parseInt_eq_some_iff.mp hnumber) hpairs⟩

/-! ## The command -/

/-- The value is in the log and in the store, with the time to live. -/
structure Stores (cfg : Config) (env : Env) (s : Storage) (key text : Bytes) (ttl : Int)
    (o : Outcome) : Prop where
  response : o.response = { head := ascii "+OK" }
  logged : o.logged = if cfg.aof then [.set key text ttl] else []
  stored : s.set env.now env.buckets key (withSpare text env.spare) ttl = (true, o.storage)

variable {cfg : Config} {env : Env} {s : Storage} {key : Bytes} {ttl : Int}

theorem stores_storeLogged (h : s.canStore key (withSpare text env.spare) = true) :
    Stores cfg env s key text ttl (storeLogged cfg env none s key text ttl) := by
  have hset := (Storage.set_fst s env.now env.buckets key (withSpare text env.spare) ttl).trans h
  rw [storeLogged, if_neg (by simp)]
  exact ⟨rfl, rfl, Prod.ext hset rfl⟩

/-- A value that is stored with a time to live is either evicted at once or has a deadline. -/
theorem Stores.deadline {o : Outcome} (h : Stores cfg env s key text ttl o) (hpos : 0 < ttl)
    (hstored : (o.storage.data.lookup key).isSome) :
    o.storage.ttl.expiries.lookup key = some (TTLManager.deadline env.now ttl) := by
  have hset := h.stored
  have hfits : s.canStore key (withSpare text env.spare) = true := by
    rw [← Storage.set_fst s env.now env.buckets key _ ttl, hset]
  have hdata := Storage.lookup_set env.now env.buckets ttl hfits key
  have hdeadline := Storage.deadline_set env.now env.buckets ttl hfits key
  rw [hset, if_pos (rfl : key = key)] at hdata hdeadline
  rw [hdata] at hstored
  split_ifs at hstored hdeadline with hvictim
  · exact absurd hstored Bool.false_ne_true
  · exact hdeadline

/-- A `SET` that is not too large is carried out with the time to live of its options, if these are
options at all. Otherwise it is answered with an error and does nothing. A pair means a deadline. -/
theorem set_options (env : Env) (s : Storage) {cmd : Command} {options : List Bytes}
    (htype : cmd.type = .set) (hargs : cmd.args = key :: text :: options)
    (hkey : key.length ≤ Storage.kMaxKeySize) (htext : text.length ≤ cfg.maxValueSize)
    (hfits : s.canStore key (withSpare text env.spare) = true) :
    (∀ plain last, Options options plain last →
      let o := executeCommand cfg env none cmd s
      Stores cfg env s key text (last.getD (plain.getD 0)) o ∧
        ∀ seconds, last = some seconds → 1 ≤ seconds ∧ seconds < 2 ^ 31 ∧
          ((o.storage.data.lookup key).isSome →
            o.storage.ttl.expiries.lookup key = some (TTLManager.deadline env.now seconds))) ∧
    ((∀ plain last, ¬ Options options plain last) → ∀ fault, ∃ head, ascii "-ERR" <+: head ∧
      executeCommand cfg env fault cmd s = ⟨{ head := head }, s, []⟩) := by
  have hexec : ∀ fault, executeCommand cfg env fault cmd s =
      executeSet cfg env fault s (key :: text :: options) := fun fault => by
    simp [executeCommand, htype, hargs]
  constructor
  · intro plain last hoptions o
    have hadmitted : Admitted cfg env s (key :: text :: options) key text
        (last.getD (plain.getD 0)) :=
      ⟨⟨options, rfl, scanOptions_options hoptions⟩, hkey, htext, hfits⟩
    have hstores : Stores cfg env s key text (last.getD (plain.getD 0)) o := by
      show Stores _ _ _ _ _ _ (executeCommand cfg env none cmd s)
      rw [hexec, executeSet_of_admitted hadmitted]
      exact stores_storeLogged hfits
    refine ⟨hstores, ?_⟩
    rintro seconds rfl
    obtain ⟨hpos, hlt⟩ : 1 ≤ seconds ∧ seconds < 2 ^ 31 := by
      cases hoptions with
      | pairs pairs => exact pairs.bounds
      | plain _ pairs => exact pairs.bounds
    exact ⟨hpos, hlt, fun hstored => hstores.deadline (show 0 < seconds by omega) hstored⟩
  · intro hnone fault
    rw [hexec]
    refine executeSet_of_refused ?_
    rintro key' text' ttl' ⟨⟨options', heq, hscan⟩, -⟩
    cases heq
    obtain ⟨plain, last, hoptions⟩ := options_of_scanOptions hscan
    exact hnone plain last hoptions

/-- `SET k 1 60 px 1` keeps the value for a second, and `SET k 1 NX` is refused. -/
theorem set_options_examples :
    let cfg : Config := ⟨true, 1024, fun _ => []⟩
    let s := Storage.init 1 1024 1024
    Stores cfg ⟨0, 1, 14⟩ s [107] [49] 1 (executeCommand cfg ⟨0, 1, 14⟩ none
      ⟨.set, [], [[107], [49], ascii "60", ascii "px", [49]]⟩ s) ∧
    ∃ head, ascii "-ERR" <+: head ∧
      executeCommand cfg ⟨0, 1, 14⟩ none ⟨.set, [], [[107], [49], ascii "NX"]⟩ s =
        ⟨{ head := head }, s, []⟩ := by
  intro cfg s
  constructor
  · have hone : IsInt [49] 1 := parseInt_eq_some_iff.mp (by decide)
    have hpx : Pairs [ascii "px", [49]] (some 1) :=
      .px (by decide) hone le_rfl (by decide) (by decide) .nil
    have hoptions : Options [ascii "60", ascii "px", [49]] (some 60) (some 1) :=
      .plain (parseInt_eq_some_iff.mp (by decide)) hpx
    exact ((set_options _ s rfl rfl (by decide) (by decide) (by decide)).1 _ _ hoptions).1
  · refine (set_options _ s rfl rfl (by decide) (by decide) (by decide)).2 ?_ none
    intro plain last hoptions
    exact nomatch scanOptions_options hoptions

end Server

end PolyCache
