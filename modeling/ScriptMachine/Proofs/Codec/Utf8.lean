import ScriptMachine.Text.Utf8

/-!
# Text comes back from its bytes

The bytes of a character are split off as that character (`parts_encodeChar`): the first byte says
how many follow, and its range for the second byte admits every character of that length.  So the
forgiving and the strict reading both give a text back from its UTF-8 bytes.
-/

namespace ScriptMachine.Utf8

/-- A number below 256 fits a byte. -/
theorem toNat_byte {n : Nat} (h : n < 256) : (UInt8.ofNat n).toNat = n := by
  rw [UInt8.toNat_ofNat']
  omega

/-- The lead byte of a two-byte character. -/
theorem follow_two {n : Nat} (h : 0xC2 ≤ n) (h' : n ≤ 0xDF) :
    follow (UInt8.ofNat n) = some (1, 0x80, 0xBF) := by
  have hn := toNat_byte (show n < 256 by omega)
  unfold follow
  rw [if_pos]
  simp only [UInt8.le_iff_toNat_le, hn]
  exact ⟨h, h'⟩

/-- The lead byte of a three-byte character admits the second bytes that belong to it. -/
theorem follow_three {n : Nat} (h : 0x800 ≤ n) (h' : n ≤ 0xFFFF)
    (hs : n < 0xD800 ∨ 0xDFFF < n) :
    ∃ low high, follow (UInt8.ofNat (n / 4096 + 0xE0)) = some (2, low, high) ∧
      low.toNat ≤ n / 64 % 64 + 0x80 ∧ n / 64 % 64 + 0x80 ≤ high.toNat := by
  have hn := toNat_byte (show n / 4096 + 0xE0 < 256 by omega)
  unfold follow
  rw [if_neg (by simp only [UInt8.le_iff_toNat_le, hn]; simp)]
  by_cases h0 : UInt8.ofNat (n / 4096 + 0xE0) = 0xE0
  · rw [if_pos h0]
    have := congrArg UInt8.toNat h0
    rw [hn] at this
    exact ⟨_, _, rfl, by simp at this ⊢; omega, by simp; omega⟩
  · rw [if_neg h0]
    by_cases hd : UInt8.ofNat (n / 4096 + 0xE0) = 0xED
    · rw [if_pos hd]
      have := congrArg UInt8.toNat hd
      rw [hn] at this
      exact ⟨_, _, rfl, by simp, by simp at this ⊢; omega⟩
    · rw [if_neg hd, if_pos]
      · exact ⟨_, _, rfl, by simp, by simp; omega⟩
      · have hne : n / 4096 + 0xE0 ≠ 0xE0 := fun h => h0 (by rw [h]; rfl)
        simp only [UInt8.le_iff_toNat_le, hn]
        simp
        omega

/-- The lead byte of a four-byte character admits the second bytes that belong to it. -/
theorem follow_four {n : Nat} (h : 0x10000 ≤ n) (h' : n < 0x110000) :
    ∃ low high, follow (UInt8.ofNat (n / 262144 + 0xF0)) = some (3, low, high) ∧
      low.toNat ≤ n / 4096 % 64 + 0x80 ∧ n / 4096 % 64 + 0x80 ≤ high.toNat := by
  have hcases : n / 262144 = 0 ∨ n / 262144 = 1 ∨ n / 262144 = 2 ∨ n / 262144 = 3 ∨
      n / 262144 = 4 := by omega
  rcases hcases with hn | hn | hn | hn | hn <;> rw [hn] <;>
    exact ⟨_, _, rfl, by simp <;> omega, by simp; omega⟩

/-- A byte that continues a character. -/
theorem continues_byte (n : Nat) : continues (UInt8.ofNat (n % 64 + 0x80)) = true := by
  have hn := toNat_byte (show n % 64 + 0x80 < 256 by omega)
  simp only [continues, UInt8.le_iff_toNat_le, hn, Bool.and_eq_true, decide_eq_true_eq]
  constructor <;> simp
  omega

/-- A byte from 0x80 on does not stand for itself. -/
theorem not_lt_ascii {n : Nat} (h : 0x80 ≤ n) (h' : n < 256) : ¬ UInt8.ofNat n < 0x80 := by
  simp only [UInt8.lt_iff_toNat_lt, toNat_byte h']
  simp
  omega

/-- **One character.**  The bytes of a character are split off as that character. -/
theorem parts_encodeChar (c : Char) (rest : Bytes) :
    parts (String.utf8EncodeChar c ++ rest) = .char c :: parts rest := by
  have hvalid := c.valid
  have hc : Char.ofNat c.val.toNat = c := Char.ofNat_toNat c
  simp only [UInt32.isValidChar, Nat.isValidChar] at hvalid
  unfold String.utf8EncodeChar
  generalize c.val.toNat = n at *
  dsimp only
  split
  · rename_i h
    rw [List.singleton_append, parts, if_pos, toNat_byte (by omega), hc]
    rw [UInt8.lt_iff_toNat_lt, toNat_byte (by omega)]
    simp
    omega
  · split
    · rename_i h1 h2
      have hlead : n / 64 % 32 = n / 64 := by omega
      rw [hlead]
      simp only [List.cons_append, List.nil_append]
      rw [parts, if_neg (not_lt_ascii (by omega) (by omega)), follow_two (by omega) (by omega)]
      have hb := toNat_byte (show n % 64 + 0x80 < 256 by omega)
      have ha := toNat_byte (show n / 64 + 0xC0 < 256 by omega)
      simp only [UInt8.le_iff_toNat_le, hb]
      rw [if_pos (by simp; omega), if_pos trivial]
      simp only [assemble, List.foldl_cons, List.foldl_nil, ha, hb]
      rw [show (n / 64 + 0xC0) % 32 * 64 + (n % 64 + 0x80) % 64 = n by omega, hc]
    · split
      · rename_i h1 h2 h3
        have hlead : n / 4096 % 16 = n / 4096 := by omega
        rw [hlead]
        obtain ⟨low, high, hf, hlow, hhigh⟩ := follow_three (n := n) (by omega) (by omega) (by omega)
        have ha := toNat_byte (show n / 4096 + 0xE0 < 256 by omega)
        have hb := toNat_byte (show n / 64 % 64 + 0x80 < 256 by omega)
        have hd := toNat_byte (show n % 64 + 0x80 < 256 by omega)
        simp only [List.cons_append, List.nil_append]
        rw [parts, if_neg (not_lt_ascii (by omega) (by omega)), hf]
        simp only [UInt8.le_iff_toNat_le, hb]
        rw [if_pos ⟨hlow, hhigh⟩, if_neg (by decide), if_pos (continues_byte n), if_pos trivial]
        simp only [assemble, List.foldl_cons, List.foldl_nil, ha, hb, hd]
        rw [show ((n / 4096 + 0xE0) % 16 * 64 + (n / 64 % 64 + 0x80) % 64) * 64 +
          (n % 64 + 0x80) % 64 = n by omega, hc]
      · rename_i h1 h2 h3
        have hlead : n / 262144 % 8 = n / 262144 := by omega
        rw [hlead]
        obtain ⟨low, high, hf, hlow, hhigh⟩ := follow_four (n := n) (by omega) (by omega)
        have ha := toNat_byte (show n / 262144 + 0xF0 < 256 by omega)
        have hb := toNat_byte (show n / 4096 % 64 + 0x80 < 256 by omega)
        have hd := toNat_byte (show n / 64 % 64 + 0x80 < 256 by omega)
        have he := toNat_byte (show n % 64 + 0x80 < 256 by omega)
        simp only [List.cons_append, List.nil_append]
        rw [parts, if_neg (not_lt_ascii (by omega) (by omega)), hf]
        simp only [UInt8.le_iff_toNat_le, hb]
        rw [if_pos ⟨hlow, hhigh⟩, if_neg (by decide), if_pos (continues_byte (n / 64)),
          if_neg (by decide), if_pos (continues_byte n)]
        simp only [assemble, List.foldl_cons, List.foldl_nil, ha, hb, hd, he]
        rw [show (((n / 262144 + 0xF0) % 8 * 64 + (n / 4096 % 64 + 0x80) % 64) * 64 +
          (n / 64 % 64 + 0x80) % 64) * 64 + (n % 64 + 0x80) % 64 = n by omega, hc]

/-- The bytes of a text are split into its characters. -/
theorem parts_encodeChars (cs : List Char) :
    parts (cs.flatMap String.utf8EncodeChar) = cs.map .char := by
  induction cs with
  | nil => rfl
  | cons c cs ih => rw [List.flatMap_cons, parts_encodeChar, ih, List.map_cons]

/-- The forgiving reading gives a text back. -/
@[simp] theorem lossy_encode (s : String) : lossy (encode s) = s := by
  simp only [lossy, encode, parts_encodeChars, List.map_map, Function.comp_def, List.map_id_fun',
    id_eq, String.ofList_toList]

/-- Characters are collected as they are. -/
theorem collect_chars (offset : Nat) (cs : List Char) : collect offset (cs.map .char) = .ok cs := by
  induction cs generalizing offset with
  | nil => rfl
  | cons c cs ih => rw [List.map_cons, collect, ih]

/-- The strict reading gives a text back. -/
@[simp] theorem decode_encode (s : String) : decode (encode s) = .ok s := by
  rw [decode, encode, parts_encodeChars, collect_chars]
  change Except.ok (String.ofList s.toList) = _
  rw [String.ofList_toList]

end ScriptMachine.Utf8
