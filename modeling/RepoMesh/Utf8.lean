import Mathlib.Algebra.Group.Nat.Defs
import Mathlib.Tactic.SplitIfs
import RepoMesh.Separated

/-!
# Decoding UTF-8 with replacement

`bytes.decode("utf-8", errors="replace")`: every maximal run of bytes that begins a
character and cannot be one becomes a single U+FFFD. The decoder reads byte by byte; a
character that is begun (`Begun`) carries the bounds of its next byte, and with them that
it will be a character above ASCII.

So an ASCII byte is always read as itself and cuts the text (`decodeFrom_ascii`), no other
byte yields an ASCII character (`mem_of_decodeFrom`), and what was encoded is decoded
again (`decode_encode`).
-/

namespace RepoMesh

namespace Utf8

def replacement : Char := Char.ofNat 0xFFFD

/-- A character that is begun: its bits so far, the bounds of its next byte, and how many
bytes it needs behind that one. Whatever bytes follow in these bounds, it is a character
above ASCII. -/
structure Begun where
  bits : ℕ
  low : ℕ
  high : ℕ
  more : ℕ
  low_ge : 0x80 ≤ low
  above : 0x80 ≤ (bits * 64 + (low - 0x80)) * 64 ^ more
  valid : (bits * 64 + (high - 0x80) + 1) * 64 ^ more ≤ 0xD800 ∨
    0xE000 ≤ (bits * 64 + (low - 0x80)) * 64 ^ more ∧
      (bits * 64 + (high - 0x80) + 1) * 64 ^ more ≤ 0x110000

/-- What a first byte yields: a character, or the beginning of one. -/
def lead (b : ℕ) : List Char × Option Begun :=
  if b < 0x80 then ([Char.ofNat b], none)
  else if h : 0xC2 ≤ b ∧ b ≤ 0xDF then
    ([], some ⟨b - 0xC0, 0x80, 0xBF, 0, by omega, by omega, by omega⟩)
  else if h : b = 0xE0 then ([], some ⟨0, 0xA0, 0xBF, 1, by omega, by omega, by omega⟩)
  else if h : b = 0xED then ([], some ⟨0xD, 0x80, 0x9F, 1, by omega, by omega, by omega⟩)
  else if h : 0xE1 ≤ b ∧ b ≤ 0xEF then
    ([], some ⟨b - 0xE0, 0x80, 0xBF, 1, by omega, by omega, by omega⟩)
  else if h : b = 0xF0 then ([], some ⟨0, 0x90, 0xBF, 2, by omega, by omega, by omega⟩)
  else if h : b = 0xF4 then ([], some ⟨4, 0x80, 0x8F, 2, by omega, by omega, by omega⟩)
  else if h : 0xF1 ≤ b ∧ b ≤ 0xF3 then
    ([], some ⟨b - 0xF0, 0x80, 0xBF, 2, by omega, by omega, by omega⟩)
  else ([replacement], none)

/-- A byte in the bounds takes a character one step further. -/
theorem Begun.step_bounds (p : Begun) {b more : ℕ} (hlow : p.low ≤ b) (hhigh : b ≤ p.high)
    (hmore : p.more = more + 1) :
    (p.bits * 64 + (p.low - 0x80)) * 64 ^ p.more ≤
        ((p.bits * 64 + (b - 0x80)) * 64 + (0x80 - 0x80)) * 64 ^ more ∧
      ((p.bits * 64 + (b - 0x80)) * 64 + (0xBF - 0x80) + 1) * 64 ^ more ≤
        (p.bits * 64 + (p.high - 0x80) + 1) * 64 ^ p.more := by
  have hpow : 64 ^ p.more = 64 * 64 ^ more := by rw [hmore, Nat.pow_succ, Nat.mul_comm]
  rw [hpow, ← Nat.mul_assoc, ← Nat.mul_assoc]
  exact ⟨Nat.mul_le_mul_right _ (by omega), Nat.mul_le_mul_right _ (by omega)⟩

/-- A byte in the bounds ends the character or takes it one step further. -/
def Begun.read (p : Begun) (b : ℕ) (h : p.low ≤ b ∧ b ≤ p.high) : List Char × Option Begun :=
  match hmore : p.more with
  | 0 => ([Char.ofNat (p.bits * 64 + (b - 0x80))], none)
  | more + 1 =>
      ([], some
        { bits := p.bits * 64 + (b - 0x80)
          low := 0x80
          high := 0xBF
          more := more
          low_ge := by omega
          above := Nat.le_trans p.above (p.step_bounds h.1 h.2 hmore).1
          valid := by
            have hstep := p.step_bounds h.1 h.2 hmore
            rcases p.valid with hv | ⟨hv, hv'⟩
            · exact Or.inl (Nat.le_trans hstep.2 hv)
            · exact Or.inr ⟨Nat.le_trans hv hstep.1, Nat.le_trans hstep.2 hv'⟩ })

/-- What the next byte yields. -/
def next (state : Option Begun) (b : ℕ) : List Char × Option Begun :=
  match state with
  | none => lead b
  | some p =>
      if h : p.low ≤ b ∧ b ≤ p.high then p.read b h
      else (replacement :: (lead b).1, (lead b).2)

/-- The text of some bytes, behind the beginning of a character if there is one. -/
def decodeFrom : Option Begun → List UInt8 → List Char
  | none, [] => []
  | some _, [] => [replacement]
  | state, b :: bytes => (next state b.toNat).1 ++ decodeFrom (next state b.toNat).2 bytes

def decode (bytes : List UInt8) : List Char := decodeFrom none bytes

def encode (text : List Char) : List UInt8 := text.flatMap String.utf8EncodeChar

/-! ## ASCII -/

theorem lead_ascii {b : ℕ} (h : b < 0x80) : lead b = ([Char.ofNat b], none) := if_pos h

/-- Beyond ASCII a first byte yields no ASCII character. -/
theorem ge_of_mem_lead {b : ℕ} (h : 0x80 ≤ b) {c : Char} (hc : c ∈ (lead b).1) :
    0x80 ≤ c.toNat := by
  unfold lead at hc
  rw [if_neg (by omega)] at hc
  split_ifs at hc
  all_goals first
    | (cases hc; done)
    | (rw [List.mem_singleton.mp hc]; decide)

theorem toNat_ofNat {n : ℕ} (h : n.isValidChar) : (Char.ofNat n).toNat = n := by
  rw [Char.ofNat, dif_pos h]
  rfl

/-- The last byte of a character makes it. -/
theorem Begun.isValidChar (p : Begun) (hmore : p.more = 0) {b : ℕ} (hlow : p.low ≤ b)
    (hhigh : b ≤ p.high) :
    0x80 ≤ p.bits * 64 + (b - 0x80) ∧ (p.bits * 64 + (b - 0x80)).isValidChar := by
  have habove := p.above
  have hvalid := p.valid
  rw [hmore] at habove hvalid
  refine ⟨by omega, ?_⟩
  rcases hvalid with hv | hv
  · exact Or.inl (by omega)
  · exact Or.inr (by omega)

theorem ge_of_mem_read {p : Begun} {b : ℕ} (h : p.low ≤ b ∧ b ≤ p.high) {c : Char}
    (hc : c ∈ (p.read b h).1) : 0x80 ≤ c.toNat := by
  unfold Begun.read at hc
  split at hc
  · rename_i hmore
    obtain ⟨hge, hvalid⟩ := p.isValidChar hmore h.1 h.2
    rw [List.mem_singleton.mp hc, toNat_ofNat hvalid]
    exact hge
  · cases hc

theorem mem_lead {b : ℕ} {c : Char} (hc : c ∈ (lead b).1) (hascii : c.toNat < 0x80) :
    c.toNat = b := by
  by_cases hb : b < 0x80
  · rw [lead_ascii hb] at hc
    rw [List.mem_singleton.mp hc, toNat_ofNat (Or.inl (by omega))]
  · have hge := ge_of_mem_lead (by omega) hc
    omega

/-- An ASCII character comes from the byte that is read. -/
theorem mem_next {state : Option Begun} {b : ℕ} {c : Char} (hc : c ∈ (next state b).1)
    (hascii : c.toNat < 0x80) : c.toNat = b := by
  cases state with
  | none => exact mem_lead hc hascii
  | some p =>
      by_cases h : p.low ≤ b ∧ b ≤ p.high
      · simp only [next, dif_pos h] at hc
        have hge := ge_of_mem_read h hc
        omega
      · simp only [next, dif_neg h] at hc
        rcases List.mem_cons.mp hc with rfl | hc
        · exact absurd hascii (by decide)
        · exact mem_lead hc hascii

/-- No byte but its own yields an ASCII character. -/
theorem mem_of_decodeFrom {state : Option Begun} {bytes : List UInt8} {c : Char}
    (hc : c ∈ decodeFrom state bytes) (hascii : c.toNat < 0x80) :
    UInt8.ofNat c.toNat ∈ bytes := by
  induction bytes generalizing state with
  | nil =>
      cases state with
      | none => cases hc
      | some p =>
          rw [List.mem_singleton.mp hc] at hascii
          exact absurd hascii (by decide)
  | cons b bytes ih =>
      rw [decodeFrom, List.mem_append] at hc
      rcases hc with hc | hc
      · rw [mem_next hc hascii, UInt8.ofNat_toNat]
        exact List.mem_cons_self
      · exact List.mem_cons_of_mem _ (ih hc)

/-- An ASCII byte is read as itself, and what follows it as if it came first. -/
theorem decodeFrom_ascii (state : Option Begun) (before : List UInt8) {b : UInt8}
    (hb : b.toNat < 0x80) (after : List UInt8) :
    decodeFrom state (before ++ b :: after) =
      decodeFrom state before ++ Char.ofNat b.toNat :: decodeFrom none after := by
  induction before generalizing state with
  | nil =>
      cases state with
      | none =>
          simp [decodeFrom, next, lead_ascii hb]
      | some p =>
          have hlow := p.low_ge
          have hout : ¬ (p.low ≤ b.toNat ∧ b.toNat ≤ p.high) := by omega
          simp [decodeFrom, next, dif_neg hout, lead_ascii hb]
  | cons a before ih =>
      rw [List.cons_append, decodeFrom, ih, decodeFrom, List.append_assoc]

/-- Pieces joined by an ASCII byte are read one by one. -/
theorem decode_intercalate {b : UInt8} (hb : b.toNat < 0x80) (pieces : List (List UInt8)) :
    decode ([b].intercalate pieces) = [Char.ofNat b.toNat].intercalate (pieces.map decode) := by
  induction pieces with
  | nil => rfl
  | cons piece pieces ih =>
      by_cases hpieces : pieces = []
      · simp [hpieces]
      · rw [List.map_cons, intercalate_cons_cons_eq _ hpieces,
          intercalate_cons_cons_eq _ (by simpa using hpieces), ← ih, decode,
          decodeFrom_ascii none piece hb]
        rfl

/-! ## Round trip -/

theorem decodeFrom_cons (state : Option Begun) (b : UInt8) (bytes : List UInt8) :
    decodeFrom state (b :: bytes) =
      (next state b.toNat).1 ++ decodeFrom (next state b.toNat).2 bytes := by
  cases state <;> rfl

theorem lead_two {b : ℕ} (h : 0xC2 ≤ b ∧ b ≤ 0xDF) :
    ∃ p : Begun, lead b = ([], some p) ∧ p.bits = b - 0xC0 ∧ p.more = 0 ∧ p.low = 0x80 ∧
      p.high = 0xBF := by
  rw [lead, if_neg (by omega), dif_pos h]
  exact ⟨_, rfl, rfl, rfl, rfl, rfl⟩

theorem lead_three {b : ℕ} (h : 0xE0 ≤ b ∧ b ≤ 0xEF) :
    ∃ p : Begun, lead b = ([], some p) ∧ p.bits = b - 0xE0 ∧ p.more = 1 ∧
      p.low = (if b = 0xE0 then 0xA0 else 0x80) ∧ p.high = if b = 0xED then 0x9F else 0xBF := by
  rw [lead, if_neg (by omega), dif_neg (by omega)]
  by_cases h0 : b = 0xE0
  · rw [dif_pos h0]
    subst h0
    exact ⟨_, rfl, rfl, rfl, rfl, rfl⟩
  · rw [dif_neg h0, if_neg h0]
    by_cases hd : b = 0xED
    · rw [dif_pos hd, if_pos hd]
      subst hd
      exact ⟨_, rfl, rfl, rfl, rfl, rfl⟩
    · rw [dif_neg hd, if_neg hd, dif_pos (by omega)]
      exact ⟨_, rfl, rfl, rfl, rfl, rfl⟩

theorem lead_four {b : ℕ} (h : 0xF0 ≤ b ∧ b ≤ 0xF4) :
    ∃ p : Begun, lead b = ([], some p) ∧ p.bits = b - 0xF0 ∧ p.more = 2 ∧
      p.low = (if b = 0xF0 then 0x90 else 0x80) ∧ p.high = if b = 0xF4 then 0x8F else 0xBF := by
  rw [lead, if_neg (by omega), dif_neg (by omega), dif_neg (by omega), dif_neg (by omega),
    dif_neg (by omega)]
  by_cases h0 : b = 0xF0
  · rw [dif_pos h0]
    subst h0
    exact ⟨_, rfl, rfl, rfl, rfl, rfl⟩
  · rw [dif_neg h0, if_neg h0]
    by_cases h4 : b = 0xF4
    · rw [dif_pos h4, if_pos h4]
      subst h4
      exact ⟨_, rfl, rfl, rfl, rfl, rfl⟩
    · rw [dif_neg h4, if_neg h4, dif_pos (by omega)]
      exact ⟨_, rfl, rfl, rfl, rfl, rfl⟩

/-- The last byte of a character. -/
theorem decodeFrom_last {p : Begun} (hmore : p.more = 0) {x : ℕ} (hx : x < 256)
    (h : p.low ≤ x ∧ x ≤ p.high) (rest : List UInt8) :
    decodeFrom (some p) (UInt8.ofNat x :: rest) =
      Char.ofNat (p.bits * 64 + (x - 0x80)) :: decodeFrom none rest := by
  have hread : p.read x h = ([Char.ofNat (p.bits * 64 + (x - 0x80))], none) := by
    unfold Begun.read
    split
    · rfl
    · omega
  rw [decodeFrom_cons, UInt8.toNat_ofNat_of_lt' hx]
  simp [next, dif_pos h, hread]

/-- A byte in between. -/
theorem decodeFrom_between {p : Begun} {more : ℕ} (hmore : p.more = more + 1) {x : ℕ}
    (hx : x < 256) (h : p.low ≤ x ∧ x ≤ p.high) (rest : List UInt8) :
    ∃ q : Begun, decodeFrom (some p) (UInt8.ofNat x :: rest) = decodeFrom (some q) rest ∧
      q.bits = p.bits * 64 + (x - 0x80) ∧ q.more = more ∧ q.low = 0x80 ∧ q.high = 0xBF := by
  obtain ⟨q, hread, hq⟩ : ∃ q : Begun, p.read x h = ([], some q) ∧
      q.bits = p.bits * 64 + (x - 0x80) ∧ q.more = more ∧ q.low = 0x80 ∧ q.high = 0xBF := by
    unfold Begun.read
    split
    · omega
    · rename_i k hk
      exact ⟨_, rfl, rfl, Nat.succ.inj (hk.symm.trans hmore), rfl, rfl⟩
  refine ⟨q, ?_, hq⟩
  rw [decodeFrom_cons, UInt8.toNat_ofNat_of_lt' hx]
  simp [next, dif_pos h, hread]

/-- The first byte of a character. -/
theorem decodeFrom_lead {x : ℕ} {p : Begun} (hx : x < 256) (h : lead x = ([], some p))
    (rest : List UInt8) :
    decodeFrom none (UInt8.ofNat x :: rest) = decodeFrom (some p) rest := by
  rw [decodeFrom_cons, UInt8.toNat_ofNat_of_lt' hx]
  simp [next, h]

theorem decodeFrom_encodeChar (c : Char) (rest : List UInt8) :
    decodeFrom none (String.utf8EncodeChar c ++ rest) = c :: decodeFrom none rest := by
  have hvalid : c.val.toNat.isValidChar := c.valid
  have hchar : ∀ n, n = c.val.toNat → Char.ofNat n = c := by
    rintro n rfl
    exact Char.ofNat_toNat c
  unfold String.utf8EncodeChar
  generalize c.val.toNat = v at hvalid hchar
  unfold Nat.isValidChar at hvalid
  dsimp only
  by_cases h1 : v ≤ 0x7F
  · have hv : (UInt8.ofNat v).toNat = v := UInt8.toNat_ofNat_of_lt' (by show v < 256; omega)
    rw [if_pos h1, List.singleton_append, ← List.nil_append (UInt8.ofNat v :: rest),
      decodeFrom_ascii none [] (by omega), hv, hchar v rfl]
    rfl
  rw [if_neg h1]
  by_cases h2 : v ≤ 0x7FF
  · obtain ⟨p, hlead, hbits, hmore, hlow, hhigh⟩ :=
      lead_two (b := v / 64 % 0x20 + 0xC0) (by omega)
    rw [if_pos h2, List.cons_append, List.singleton_append, decodeFrom_lead (by omega) hlead,
      decodeFrom_last hmore (by omega) (by omega), hchar _ (by omega)]
  rw [if_neg h2]
  by_cases h3 : v ≤ 0xFFFF
  · obtain ⟨p, hlead, hbits, hmore, hlow, hhigh⟩ :=
      lead_three (b := v / 4096 % 0x10 + 0xE0) (by omega)
    rw [if_pos h3, List.cons_append, List.cons_append, List.singleton_append,
      decodeFrom_lead (by omega) hlead]
    have hbounds : p.low ≤ v / 64 % 0x40 + 0x80 ∧ v / 64 % 0x40 + 0x80 ≤ p.high := by
      rw [hlow, hhigh]
      split_ifs <;> omega
    obtain ⟨q, hq, hqbits, hqmore, hqlow, hqhigh⟩ := decodeFrom_between hmore (by omega) hbounds
      (UInt8.ofNat (v % 0x40 + 0x80) :: rest)
    rw [hq, decodeFrom_last hqmore (by omega) (by omega), hchar _ (by omega)]
  · rw [if_neg h3]
    obtain ⟨p, hlead, hbits, hmore, hlow, hhigh⟩ :=
      lead_four (b := v / 262144 % 0x08 + 0xF0) (by omega)
    rw [List.cons_append, List.cons_append, List.cons_append, List.singleton_append,
      decodeFrom_lead (by omega) hlead]
    have hbounds : p.low ≤ v / 4096 % 0x40 + 0x80 ∧ v / 4096 % 0x40 + 0x80 ≤ p.high := by
      rw [hlow, hhigh]
      split_ifs <;> omega
    obtain ⟨q, hq, hqbits, hqmore, hqlow, hqhigh⟩ := decodeFrom_between hmore (by omega) hbounds
      (UInt8.ofNat (v / 64 % 0x40 + 0x80) :: UInt8.ofNat (v % 0x40 + 0x80) :: rest)
    obtain ⟨r, hr, hrbits, hrmore, hrlow, hrhigh⟩ := decodeFrom_between hqmore
      (x := v / 64 % 0x40 + 0x80) (by omega) (by omega) (UInt8.ofNat (v % 0x40 + 0x80) :: rest)
    rw [hq, hr, decodeFrom_last hrmore (by omega) (by omega), hchar _ (by omega)]

/-- What was encoded is decoded again. -/
theorem decode_encode (text : List Char) : decode (encode text) = text := by
  induction text with
  | nil => rfl
  | cons c text ih =>
      rw [encode, List.flatMap_cons, decode, decodeFrom_encodeChar]
      exact congrArg (c :: ·) ih

/-- The bytes of a character above ASCII are above ASCII. -/
theorem mem_encode {text : List Char} {b : UInt8} (hb : b ∈ encode text)
    (hascii : b.toNat < 0x80) : Char.ofNat b.toNat ∈ text := by
  obtain ⟨before, after, hsplit⟩ := List.append_of_mem hb
  have htext := decode_encode text
  rw [hsplit, decode, decodeFrom_ascii none before hascii] at htext
  rw [← htext]
  exact List.mem_append_right _ List.mem_cons_self

end Utf8

end RepoMesh
