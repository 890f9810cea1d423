import PolyCache.Aof.Base64

/-!
# The texts of the codec

Which texts `base64_decode` accepts, and what becomes of one that is decoded and encoded again. The
loops of the source go by index; here they are once more with every index checked, and no check
fails.
-/

namespace PolyCache

namespace Base64

/-! ## The grammar -/

/-- A text in whole groups of four: letters, and up to two padding bytes after them. -/
structure IsText (text body padding : Bytes) : Prop where
  parts : text = body ++ padding
  whole : text.length % 4 = 0
  letters : ∀ c ∈ body, c ∈ kBase64Alphabet
  padding : padding ∈ [[], [pad], [pad, pad]]

/-- The letters with the lowest bits of the last one cleared. -/
def clearLow (bits : Nat) : Bytes → Bytes
  | [] => []
  | [c] => [letter ((value c).toNat - (value c).toNat % 2 ^ bits)]
  | c :: body => c :: clearLow bits body

theorem length_clearLow (bits : Nat) (body : Bytes) :
    (clearLow bits body).length = body.length := by
  fun_induction clearLow bits body with
  | case1 => rfl
  | case2 c => rw [List.length_singleton, List.length_singleton]
  | case3 c body hbody ih => rw [List.length_cons, ih, List.length_cons]

/-! ## Letters -/

theorem length_alphabet : kBase64Alphabet.length = 64 := by decide

theorem letter_eq {v : Nat} (h : v % 64 < kBase64Alphabet.length) :
    letter v = kBase64Alphabet[v % 64] := by
  rw [letter, List.getD_eq_getElem?_getD, List.getElem?_eq_getElem h, Option.getD_some]

theorem letter_mem (v : Nat) : letter v ∈ kBase64Alphabet := by
  have hlt : v % 64 < kBase64Alphabet.length := by
    rw [length_alphabet]
    omega
  rw [letter_eq hlt]
  exact List.getElem_mem hlt

theorem value_of_letter {c : UInt8} (h : c ∈ kBase64Alphabet) :
    ∃ v < 64, value c = (v : Nat) ∧ letter v = c := by
  obtain ⟨v, hv, hget⟩ := List.mem_iff_getElem.mp h
  have hlt : v < 64 := length_alphabet ▸ hv
  have hletter : letter v = c := by
    have hmod := Nat.mod_eq_of_lt hlt
    rw [← hget, letter_eq (hmod.symm ▸ hv)]
    simp only [hmod]
  exact ⟨v, hlt, hletter ▸ value_letter_of_lt v hlt, hletter⟩

/-- The alphabet is three ranges and two signs. -/
theorem toNat_letter : ∀ v < 64, (letter v).toNat =
    if v < 26 then v + 65 else if v < 52 then v + 71 else if v < 62 then v - 4
    else if v = 62 then 43 else 47 := by
  decide +kernel

theorem mem_of_toNat {c : UInt8} {v : Nat} (h : (letter v).toNat = c.toNat) :
    c ∈ kBase64Alphabet := by
  rw [← UInt8.toNat_inj.mp h]
  exact letter_mem v

/-- What the value of a byte says of it. -/
theorem value_cases (c : UInt8) :
    (c ∈ kBase64Alphabet ∧ 0 ≤ value c) ∨ (c = pad ∧ value c = -2) ∨ value c = -1 := by
  unfold value
  simp only [UInt8.le_iff_toNat_le, UInt8.toNat_ofNat]
  split_ifs with hupper hlower hdigit hplus hslash hpad
  · refine .inl ⟨mem_of_toNat (v := c.toNat - 65) ?_, by omega⟩
    rw [toNat_letter _ (by omega)]
    grind
  · refine .inl ⟨mem_of_toNat (v := c.toNat - 71) ?_, by omega⟩
    rw [toNat_letter _ (by omega)]
    grind
  · refine .inl ⟨mem_of_toNat (v := c.toNat + 4) ?_, by omega⟩
    rw [toNat_letter _ (by omega)]
    grind
  · refine .inl ⟨mem_of_toNat (v := 62) ?_, by omega⟩
    rw [toNat_letter _ (by omega), hplus]
    rfl
  · refine .inl ⟨mem_of_toNat (v := 63) ?_, by omega⟩
    rw [toNat_letter _ (by omega), hslash]
    rfl
  · exact .inr (.inl ⟨hpad, rfl⟩)
  · exact .inr (.inr rfl)

theorem letter_congr {m n : Nat} (h : m % 64 = n % 64) : letter m = letter n := by
  rw [letter, letter, h]

/-! ## Groups -/

variable {a b c d : UInt8}

/-- Four letters give three bytes, which give the same letters. -/
theorem decodeGroup_letters (last : Bool) (ha : a ∈ kBase64Alphabet) (hb : b ∈ kBase64Alphabet)
    (hc : c ∈ kBase64Alphabet) (hd : d ∈ kBase64Alphabet) :
    ∃ x y z, decodeGroup last (value a) (value b) (value c) (value d) = some [x, y, z] ∧
      ∀ output, encode (x :: y :: z :: output) = a :: b :: c :: d :: encode output := by
  obtain ⟨i, hi, -, rfl⟩ := value_of_letter ha
  obtain ⟨j, hj, -, rfl⟩ := value_of_letter hb
  obtain ⟨k, hk, -, rfl⟩ := value_of_letter hc
  obtain ⟨l, hl, -, rfl⟩ := value_of_letter hd
  obtain ⟨v, hv⟩ : ∃ v, v = i * 2 ^ 18 + j * 2 ^ 12 + k * 2 ^ 6 + l := ⟨_, rfl⟩
  have hgroup := decodeGroup_three last (v := v) (by omega)
  rw [letter_congr (show v / 2 ^ 18 % 64 = i % 64 by omega),
    letter_congr (show v / 2 ^ 12 % 64 = j % 64 by omega),
    letter_congr (show v / 2 ^ 6 % 64 = k % 64 by omega),
    letter_congr (show v % 64 = l % 64 by omega)] at hgroup
  refine ⟨_, _, _, hgroup, fun output => ?_⟩
  have hsum : (UInt8.ofNat (v / 2 ^ 16)).toNat * 2 ^ 16 + (UInt8.ofNat (v / 2 ^ 8)).toNat * 2 ^ 8 +
      (UInt8.ofNat v).toNat = v := by
    simp only [UInt8.toNat_ofNat']
    omega
  rw [encode, hsum]
  rw [letter_congr (show v / 2 ^ 18 % 64 = i % 64 by omega),
    letter_congr (show v / 2 ^ 12 % 64 = j % 64 by omega),
    letter_congr (show v / 2 ^ 6 % 64 = k % 64 by omega),
    letter_congr (show v % 64 = l % 64 by omega)]

/-- Three letters and a padding byte give two bytes. -/
theorem decodeGroup_pad (ha : a ∈ kBase64Alphabet) (hb : b ∈ kBase64Alphabet)
    (hc : c ∈ kBase64Alphabet) :
    ∃ x y, decodeGroup true (value a) (value b) (value c) (value pad) = some [x, y] ∧
      encode [x, y] = clearLow 2 [a, b, c] ++ [pad] := by
  obtain ⟨i, hi, -, rfl⟩ := value_of_letter ha
  obtain ⟨j, hj, -, rfl⟩ := value_of_letter hb
  obtain ⟨k, hk, hvalue, rfl⟩ := value_of_letter hc
  obtain ⟨v, hv⟩ : ∃ v, v = i * 2 ^ 18 + j * 2 ^ 12 + k * 2 ^ 6 := ⟨_, rfl⟩
  have hgroup := decodeGroup_two (v := v) (by omega) (by omega)
  rw [letter_congr (show v / 2 ^ 18 % 64 = i % 64 by omega),
    letter_congr (show v / 2 ^ 12 % 64 = j % 64 by omega),
    letter_congr (show v / 2 ^ 6 % 64 = k % 64 by omega)] at hgroup
  refine ⟨_, _, hgroup, ?_⟩
  have hsum : (UInt8.ofNat (v / 2 ^ 16)).toNat * 2 ^ 16 + (UInt8.ofNat (v / 2 ^ 8)).toNat * 2 ^ 8 =
      v - v % 2 ^ 8 := by
    simp only [UInt8.toNat_ofNat']
    omega
  rw [encode, hsum]
  simp only [clearLow, hvalue, Int.toNat_natCast]
  rw [letter_congr (show (v - v % 2 ^ 8) / 2 ^ 18 % 64 = i % 64 by omega),
    letter_congr (show (v - v % 2 ^ 8) / 2 ^ 12 % 64 = j % 64 by omega),
    letter_congr (show (v - v % 2 ^ 8) / 2 ^ 6 % 64 = (k - k % 2 ^ 2) % 64 by omega)]
  rfl

/-- Two letters and two padding bytes give one byte. -/
theorem decodeGroup_pads (ha : a ∈ kBase64Alphabet) (hb : b ∈ kBase64Alphabet) :
    ∃ x, decodeGroup true (value a) (value b) (value pad) (value pad) = some [x] ∧
      encode [x] = clearLow 4 [a, b] ++ [pad, pad] := by
  obtain ⟨i, hi, -, rfl⟩ := value_of_letter ha
  obtain ⟨j, hj, hvalue, rfl⟩ := value_of_letter hb
  obtain ⟨v, hv⟩ : ∃ v, v = i * 2 ^ 18 + j * 2 ^ 12 := ⟨_, rfl⟩
  have hgroup := decodeGroup_one (v := v) (by omega) (by omega)
  rw [letter_congr (show v / 2 ^ 18 % 64 = i % 64 by omega),
    letter_congr (show v / 2 ^ 12 % 64 = j % 64 by omega)] at hgroup
  refine ⟨_, hgroup, ?_⟩
  have hsum : (UInt8.ofNat (v / 2 ^ 16)).toNat * 2 ^ 16 = v - v % 2 ^ 16 := by
    simp only [UInt8.toNat_ofNat']
    omega
  rw [encode, hsum]
  simp only [clearLow, hvalue, Int.toNat_natCast]
  rw [letter_congr (show (v - v % 2 ^ 16) / 2 ^ 18 % 64 = i % 64 by omega),
    letter_congr (show (v - v % 2 ^ 16) / 2 ^ 12 % 64 = (j - j % 2 ^ 4) % 64 by omega)]
  rfl

/-- No other group is decoded, and padding ends the text. -/
theorem parts_of_decodeGroup {last : Bool} {group : Bytes}
    (h : decodeGroup last (value a) (value b) (value c) (value d) = some group) :
    ∃ body padding, [a, b, c, d] = body ++ padding ∧ (∀ c ∈ body, c ∈ kBase64Alphabet) ∧
      padding ∈ [[], [pad], [pad, pad]] ∧ (last = false → padding = []) := by
  have hletter : ∀ c, ¬ value c < 0 → c ∈ kBase64Alphabet := by
    intro c hc
    obtain ⟨hmem, -⟩ | ⟨-, hv⟩ | hv := value_cases c
    · exact hmem
    · omega
    · omega
  have hpad : ∀ c, value c = -2 → c = pad := by
    intro c hc
    obtain ⟨-, hv⟩ | ⟨hpad, -⟩ | hv := value_cases c
    · omega
    · exact hpad
    · omega
  have hinvalid : ¬ (value a < 0 ∨ value b < 0 ∨ value c = -1 ∨ value d = -1) := fun hbad => by
    rw [decodeGroup, if_pos hbad] at h
    cases h
  have hc : ¬ (value c = -2 ∧ (¬ last ∨ value d ≠ -2)) := fun hbad => by
    rw [decodeGroup, if_neg hinvalid, if_pos hbad] at h
    cases h
  have hd : ¬ (value c ≠ -2 ∧ value d = -2 ∧ ¬ last) := fun hbad => by
    rw [decodeGroup, if_neg hinvalid, if_neg hc, if_pos hbad] at h
    cases h
  simp only [not_or] at hinvalid
  obtain ⟨ha, hb, hc', hd'⟩ := hinvalid
  have hrange : ∀ c, ¬ value c = -1 → value c = -2 ∨ ¬ value c < 0 := by
    intro c hc
    obtain ⟨-, hv⟩ | ⟨-, hv⟩ | hv := value_cases c <;> omega
  obtain hcv | hcv := hrange c hc'
  · have hlast : last = true ∧ value d = -2 := by
      simp only [hcv, true_and, not_or, not_not] at hc
      exact hc
    refine ⟨[a, b], [pad, pad], ?_, ?_, by simp, fun hf => ?_⟩
    · rw [hpad c hcv, hpad d hlast.2]
      rfl
    · simpa using ⟨hletter a ha, hletter b hb⟩
    · rw [hlast.1] at hf
      cases hf
  · obtain hdv | hdv := hrange d hd'
    · have hlast : last = true := by
        simp only [hdv, true_and, not_and, not_not] at hd
        exact hd (by omega)
      refine ⟨[a, b, c], [pad], ?_, ?_, by simp, fun hf => ?_⟩
      · rw [hpad d hdv]
        rfl
      · simpa using ⟨hletter a ha, hletter b hb, hletter c hcv⟩
      · rw [hlast] at hf
        cases hf
    · refine ⟨[a, b, c, d], [], by simp, ?_, by simp, fun _ => rfl⟩
      simpa using ⟨hletter a ha, hletter b hb, hletter c hcv, hletter d hdv⟩

/-! ## Texts -/

variable {text body padding output : Bytes}

theorem length_le_of_padding (h : padding ∈ [[], [pad], [pad, pad]]) : padding.length ≤ 2 := by
  simp only [List.mem_cons, List.not_mem_nil, or_false] at h
  obtain rfl | rfl | rfl := h <;> decide

theorem eq_of_padding (h : padding ∈ [[], [pad], [pad, pad]]) {n : Nat} (hn : padding.length = n) :
    padding = List.replicate n pad := by
  subst hn
  simp only [List.mem_cons, List.not_mem_nil, or_false] at h
  obtain rfl | rfl | rfl := h <;> rfl

/-- The padding of a text fills up its last group. -/
theorem length_padding (h : padding ∈ [[], [pad], [pad, pad]])
    (hwhole : (body ++ padding).length % 4 = 0) : padding.length = (4 - body.length % 4) % 4 := by
  have hshort := length_le_of_padding h
  rw [List.length_append] at hwhole
  omega

/-- A text is decoded, and its bytes are encoded as the same text with the unused bits cleared. -/
theorem decode_encode_of_letters (hpadding : padding ∈ [[], [pad], [pad, pad]]) :
    (body : Bytes) → (∀ c ∈ body, c ∈ kBase64Alphabet) → (body ++ padding).length % 4 = 0 →
    ∃ output, decode (body ++ padding) = some output ∧
      encode output = clearLow (2 * padding.length) body ++ padding
  | a :: b :: c :: d :: rest, hletters, hwhole => by
    have hwhole' : (rest ++ padding).length % 4 = 0 := by
      simp only [List.cons_append, List.length_cons] at hwhole
      omega
    obtain ⟨output, hdecode, hencode⟩ := decode_encode_of_letters hpadding rest
      (fun c hc => hletters c (by simp [hc])) hwhole'
    obtain ⟨x, y, z, hgroup, hquad⟩ := decodeGroup_letters (rest ++ padding).isEmpty
      (hletters a (by simp)) (hletters b (by simp)) (hletters c (by simp)) (hletters d (by simp))
    refine ⟨x :: y :: z :: output, ?_, ?_⟩
    · simp only [List.cons_append, decode, hgroup, hdecode]
      rfl
    · rw [hquad, hencode]
      cases rest with
      | nil =>
        -- whole groups of letters come before the padding, so there is none
        have hnil : padding.length = 0 := length_padding hpadding hwhole'
        obtain ⟨v, hv, hvalue, rfl⟩ := value_of_letter (hletters d (by simp))
        simp [List.length_eq_zero_iff.mp hnil, clearLow, hvalue, Nat.mod_one]
      | cons e rest => rfl
  | [a, b, c], hletters, hwhole => by
    have hone : padding.length = 1 := length_padding hpadding hwhole
    obtain ⟨x, y, hgroup, hencode⟩ := decodeGroup_pad (hletters a (by simp))
      (hletters b (by simp)) (hletters c (by simp))
    rw [eq_of_padding hpadding hone]
    exact ⟨[x, y], by simp [decode, hgroup], hencode⟩
  | [a, b], hletters, hwhole => by
    have htwo : padding.length = 2 := length_padding hpadding hwhole
    obtain ⟨x, hgroup, hencode⟩ := decodeGroup_pads (hletters a (by simp)) (hletters b (by simp))
    rw [eq_of_padding hpadding htwo]
    exact ⟨[x], by simp [decode, hgroup], hencode⟩
  | [a], hletters, hwhole => by
    have hthree : padding.length = 3 := length_padding hpadding hwhole
    have hshort := length_le_of_padding hpadding
    omega
  | [], hletters, hwhole => by
    have hnil : padding.length = 0 := length_padding hpadding hwhole
    rw [eq_of_padding hpadding hnil]
    exact ⟨[], rfl, rfl⟩

theorem IsText.decode_encode (h : IsText text body padding) :
    ∃ output, decode text = some output ∧
      encode output = clearLow (2 * padding.length) body ++ padding := by
  obtain ⟨rfl, hwhole, hletters, hpadding⟩ := h
  exact decode_encode_of_letters hpadding body hletters hwhole

/-- What is decoded is a text. -/
theorem isText_of_decode (h : decode text = some output) :
    ∃ body padding, IsText text body padding := by
  fun_induction decode text generalizing output with
  | case1 => exact ⟨[], [], rfl, rfl, by simp, by simp⟩
  | case2 a b c d rest ih =>
    simp only [Option.bind_eq_bind, Option.bind_eq_some_iff] at h
    obtain ⟨group, hgroup, tail, htail, -⟩ := h
    obtain ⟨front, gap, hfront, hletters, hgap, hlast⟩ := parts_of_decodeGroup hgroup
    obtain ⟨body, padding, hparts, hwhole, hbody, hpadding⟩ := ih htail
    cases hrest : rest.isEmpty with
    | true =>
      obtain rfl : rest = [] := List.isEmpty_iff.mp hrest
      exact ⟨front, gap, hfront, by simp, hletters, hgap⟩
    | false =>
      obtain rfl : gap = [] := hlast hrest
      refine ⟨front ++ body, padding, ?_, ?_, fun c hc => ?_, hpadding⟩
      · rw [List.append_assoc, ← hparts, ← List.append_nil front, ← hfront]
        rfl
      · simp only [List.length_cons]
        omega
      · obtain hc | hc := List.mem_append.mp hc
        · exact hletters c hc
        · exact hbody c hc
  | case3 => exact nomatch h

/-! ## Reads -/

/-- The loop of `base64_encode` from index `i` on; `none` when it reads past the end. -/
def encodeReads (input : Bytes) (i : Nat) : Option Bytes :=
  if i + 3 ≤ input.length then do
    let a ← input[i]?
    let b ← input[i + 1]?
    let c ← input[i + 2]?
    let v := a.toNat * 2 ^ 16 + b.toNat * 2 ^ 8 + c.toNat
    let out ← encodeReads input (i + 3)
    return letter (v / 2 ^ 18) :: letter (v / 2 ^ 12) :: letter (v / 2 ^ 6) :: letter v :: out
  else if input.length - i = 1 then do
    let a ← input[i]?
    let v := a.toNat * 2 ^ 16
    return [letter (v / 2 ^ 18), letter (v / 2 ^ 12), pad, pad]
  else if input.length - i = 2 then do
    let a ← input[i]?
    let b ← input[i + 1]?
    let v := a.toNat * 2 ^ 16 + b.toNat * 2 ^ 8
    return [letter (v / 2 ^ 18), letter (v / 2 ^ 12), letter (v / 2 ^ 6), pad]
  else some []
termination_by input.length - i

/-- The loop of `base64_decode` from index `i` on; `none` when it reads past the end, and
`some none` when it answers `false`. -/
def decodeReads (input : Bytes) (i : Nat) : Option (Option Bytes) :=
  if i < input.length then do
    let a ← input[i]?
    let b ← input[i + 1]?
    let c ← input[i + 2]?
    let d ← input[i + 3]?
    match decodeGroup (i + 4 = input.length) (value a) (value b) (value c) (value d) with
    | none => return none
    | some group =>
      let output ← decodeReads input (i + 4)
      return output.map fun output => group ++ output
  else some (some [])
termination_by input.length - i

theorem encodeReads_eq (input : Bytes) (i : Nat) :
    encodeReads input i = some (encode (input.drop i)) := by
  fun_induction encodeReads input i with
  | case1 i hi ih =>
    rw [List.drop_eq_getElem_cons (show i < input.length by omega),
      List.drop_eq_getElem_cons (show i + 1 < input.length by omega),
      List.drop_eq_getElem_cons (show i + 1 + 1 < input.length by omega)]
    simp [ih, encode, show i < input.length by omega, show i + 1 < input.length by omega,
      show i + 2 < input.length by omega]
  | case2 i hi hone =>
    rw [List.drop_eq_getElem_cons (show i < input.length by omega),
      List.drop_eq_nil_of_le (show input.length ≤ i + 1 by omega)]
    simp [encode, show i < input.length by omega]
  | case3 i hi hone htwo =>
    rw [List.drop_eq_getElem_cons (show i < input.length by omega),
      List.drop_eq_getElem_cons (show i + 1 < input.length by omega),
      List.drop_eq_nil_of_le (show input.length ≤ i + 1 + 1 by omega)]
    simp [encode, show i < input.length by omega,
      show i + 1 < input.length by omega]
  | case4 i hi hone htwo =>
    rw [List.drop_eq_nil_of_le (show input.length ≤ i by omega)]
    rfl

/-- In a text of whole groups the loop finds four bytes in each round. -/
theorem decodeReads_eq (input : Bytes) (i : Nat) (h : (input.length - i) % 4 = 0) :
    decodeReads input i = some (decode (input.drop i)) := by
  by_cases hi : i < input.length
  · have hfour : i + 4 ≤ input.length := by omega
    have ih := decodeReads_eq input (i + 4) (by omega)
    have hlast : (input.drop (i + 4)).isEmpty = decide (i + 4 = input.length) := by
      rw [Bool.eq_iff_iff, List.isEmpty_iff, List.drop_eq_nil_iff, decide_eq_true_iff]
      omega
    rw [decodeReads, if_pos hi, List.drop_eq_getElem_cons hi,
      List.drop_eq_getElem_cons (show i + 1 < input.length by omega),
      List.drop_eq_getElem_cons (show i + 1 + 1 < input.length by omega),
      List.drop_eq_getElem_cons (show i + 1 + 1 + 1 < input.length by omega), decode, hlast]
    simp only [List.getElem?_eq_getElem hi,
      List.getElem?_eq_getElem (show i + 1 < input.length by omega),
      List.getElem?_eq_getElem (show i + 2 < input.length by omega),
      List.getElem?_eq_getElem (show i + 3 < input.length by omega), Option.bind_eq_bind,
      Option.bind_some, ih]
    cases decodeGroup (i + 4 = input.length) (value input[i]) (value input[i + 1])
      (value input[i + 2]) (value input[i + 3]) with
    | none => rfl
    | some group =>
      cases decode (input.drop (i + 4)) <;> rfl
  · rw [decodeReads, if_neg hi, List.drop_eq_nil_of_le (Nat.not_lt.mp hi)]
    rfl
termination_by input.length - i

/-- `base64_decode` with every index checked. -/
def decodeChecked (input : Bytes) : Option (Option Bytes) :=
  if input.length % 4 ≠ 0 then some none else decodeReads input 0

theorem decodeChecked_eq (input : Bytes) : decodeChecked input = some (decode input) := by
  rw [decodeChecked]
  split_ifs with hwhole
  · cases hdecode : decode input with
    | none => rfl
    | some output =>
      obtain ⟨body, padding, htext⟩ := isText_of_decode hdecode
      exact absurd htext.whole hwhole
  · rw [decodeReads_eq input 0 (by omega), List.drop_zero]

/-- Encoding is undone by decoding. Exactly the texts of the grammar are decoded, and encoding
undoes that but for the unused bits of the last letter. No loop reads past the end of its input. -/
theorem base64_codec :
    (∀ input, decode (encode input) = some input) ∧
    (∀ text, match decode text with
      | some output => ∃ body padding, IsText text body padding ∧
          encode output = clearLow (2 * padding.length) body ++ padding ∧
          (encode output).length = text.length
      | none => ¬ ∃ body padding, IsText text body padding) ∧
    (∀ input, encodeReads input 0 = some (encode input)) ∧
    ∀ text, decodeChecked text = some (decode text) := by
  refine ⟨decode_encode, fun text => ?_, fun input => encodeReads_eq input 0, decodeChecked_eq⟩
  cases hdecode : decode text with
  | none =>
    rintro ⟨body, padding, htext⟩
    obtain ⟨output, hsome, -⟩ := htext.decode_encode
    rw [hdecode] at hsome
    exact nomatch hsome
  | some output =>
    obtain ⟨body, padding, htext⟩ := isText_of_decode hdecode
    obtain ⟨output', hsome, hencode⟩ := htext.decode_encode
    rw [hdecode] at hsome
    cases hsome
    refine ⟨body, padding, htext, hencode, ?_⟩
    rw [hencode, htext.parts, List.length_append, List.length_append, length_clearLow]

/-- The unused bits are dropped: both texts stand for the byte 0. -/
example : decode (ascii "AB==") = some [0] ∧ encode [0] = ascii "AA==" := by decide

end Base64

end PolyCache
