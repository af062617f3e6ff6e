import Mathlib.Data.List.Basic
import Mathlib.Tactic.Linarith
import Mathlib.Tactic.Ring

/-! Big-endian 64-bit words and unpadded url-safe base64 (RFC 4648, section
5). The decoder rejects characters outside the alphabet, a lone trailing
character and non-zero trailing bits. -/

namespace Bytes

def toBe64 (n : Nat) : List UInt8 :=
  [UInt8.ofNat (n / 2 ^ 56), UInt8.ofNat (n / 2 ^ 48), UInt8.ofNat (n / 2 ^ 40),
    UInt8.ofNat (n / 2 ^ 32), UInt8.ofNat (n / 2 ^ 24), UInt8.ofNat (n / 2 ^ 16),
    UInt8.ofNat (n / 2 ^ 8), UInt8.ofNat n]

def fromBe (bs : List UInt8) : Nat := bs.foldl (fun acc b => acc * 256 + b.toNat) 0

def sextetChar (n : Nat) : Char :=
  if n < 26 then Char.ofNat (n + 65)
  else if n < 52 then Char.ofNat (n + 71)
  else if n < 62 then Char.ofNat (n - 4)
  else if n = 62 then '-' else '_'

def charSextet (c : Char) : Option Nat :=
  if 65 ≤ c.toNat ∧ c.toNat ≤ 90 then some (c.toNat - 65)
  else if 97 ≤ c.toNat ∧ c.toNat ≤ 122 then some (c.toNat - 71)
  else if 48 ≤ c.toNat ∧ c.toNat ≤ 57 then some (c.toNat + 4)
  else if c = '-' then some 62
  else if c = '_' then some 63
  else none

def encode64 : List UInt8 → List Char
  | [] => []
  | [a] => [sextetChar (a.toNat / 4), sextetChar (a.toNat % 4 * 16)]
  | [a, b] =>
    [sextetChar (a.toNat / 4), sextetChar (a.toNat % 4 * 16 + b.toNat / 16),
      sextetChar (b.toNat % 16 * 4)]
  | a :: b :: c :: rest =>
    sextetChar (a.toNat / 4) :: sextetChar (a.toNat % 4 * 16 + b.toNat / 16) ::
      sextetChar (b.toNat % 16 * 4 + c.toNat / 64) :: sextetChar (c.toNat % 64) :: encode64 rest

def decode64 : List Char → Option (List UInt8)
  | [] => some []
  | [_] => none
  | [w, x] => do
    let w ← charSextet w
    let x ← charSextet x
    if x % 16 = 0 then some [UInt8.ofNat (w * 4 + x / 16)] else none
  | [w, x, y] => do
    let w ← charSextet w
    let x ← charSextet x
    let y ← charSextet y
    if y % 4 = 0 then
      some [UInt8.ofNat (w * 4 + x / 16), UInt8.ofNat (x % 16 * 16 + y / 4)]
    else none
  | w :: x :: y :: z :: rest => do
    let w ← charSextet w
    let x ← charSextet x
    let y ← charSextet y
    let z ← charSextet z
    let tail ← decode64 rest
    some (UInt8.ofNat (w * 4 + x / 16) :: UInt8.ofNat (x % 16 * 16 + y / 4) ::
      UInt8.ofNat (y % 4 * 64 + z) :: tail)

theorem charSextet_sextetChar : ∀ {n : Nat}, n < 64 → charSextet (sextetChar n) = some n := by
  decide

theorem ofNat_eq {n : Nat} {b : UInt8} (h : n = b.toNat) : UInt8.ofNat n = b := by
  rw [h, UInt8.ofNat_toNat]

theorem decode64_encode64 (bs : List UInt8) : decode64 (encode64 bs) = some bs := by
  induction bs using encode64.induct with
  | case1 => rfl
  | case2 a =>
    have ha := a.toNat_lt
    rw [encode64, decode64, charSextet_sextetChar (by omega), charSextet_sextetChar (by omega)]
    simp only [Option.bind_eq_bind, Option.bind_some]
    rw [if_pos (by omega), ofNat_eq (b := a) (by omega)]
  | case3 a b =>
    have ha := a.toNat_lt
    have hb := b.toNat_lt
    rw [encode64, decode64, charSextet_sextetChar (by omega), charSextet_sextetChar (by omega),
      charSextet_sextetChar (by omega)]
    simp only [Option.bind_eq_bind, Option.bind_some]
    rw [if_pos (by omega), ofNat_eq (b := a) (by omega), ofNat_eq (b := b) (by omega)]
  | case4 a b c rest ih =>
    have ha := a.toNat_lt
    have hb := b.toNat_lt
    have hc := c.toNat_lt
    rw [encode64, decode64, charSextet_sextetChar (by omega), charSextet_sextetChar (by omega),
      charSextet_sextetChar (by omega), charSextet_sextetChar (by omega), ih]
    simp only [Option.bind_eq_bind, Option.bind_some]
    rw [ofNat_eq (b := a) (by omega), ofNat_eq (b := b) (by omega), ofNat_eq (b := c) (by omega)]

theorem fromBe_toBe64 (n : Nat) : fromBe (toBe64 n) = n % 2 ^ 64 := by
  simp only [fromBe, toBe64, List.foldl_cons, List.foldl_nil, UInt8.toNat_ofNat']
  omega

theorem charSextet_eq_some {c : Char} {n : Nat} (h : charSextet c = some n) :
    n < 64 ∧ sextetChar n = c := by
  unfold charSextet at h
  split_ifs at h with hupper hlower hdigit hdash hunder
  · cases h
    refine ⟨by omega, ?_⟩
    unfold sextetChar
    rw [if_pos (by omega), Nat.sub_add_cancel hupper.1, Char.ofNat_toNat]
  · cases h
    refine ⟨by omega, ?_⟩
    unfold sextetChar
    rw [if_neg (by omega), if_pos (by omega), Nat.sub_add_cancel (by omega), Char.ofNat_toNat]
  · cases h
    refine ⟨by omega, ?_⟩
    unfold sextetChar
    rw [if_neg (by omega), if_neg (by omega), if_pos (by omega), Nat.add_sub_cancel,
      Char.ofNat_toNat]
  · cases h
    exact ⟨by decide, hdash.symm⟩
  · cases h
    exact ⟨by decide, hunder.symm⟩

theorem toNat_ofNat_of_lt {n : Nat} (h : n < 256) : (UInt8.ofNat n).toNat = n := by
  rw [UInt8.toNat_ofNat', Nat.mod_eq_of_lt h]

theorem sextets_of_bytes {w x y z : Nat} (hx : x < 64) (hy : y < 64) (hz : z < 64) :
    (w * 4 + x / 16) / 4 = w ∧ (w * 4 + x / 16) % 4 * 16 + (x % 16 * 16 + y / 4) / 16 = x ∧
      (x % 16 * 16 + y / 4) % 16 * 4 + (y % 4 * 64 + z) / 64 = y ∧ (y % 4 * 64 + z) % 64 = z := by
  omega

theorem encode64_decode64 {cs : List Char} {bs : List UInt8} (h : decode64 cs = some bs) :
    encode64 bs = cs := by
  induction cs using decode64.induct generalizing bs with
  | case1 =>
    cases h
    rfl
  | case2 c => cases h
  | case3 w x =>
    rw [decode64] at h
    simp only [Option.bind_eq_bind, Option.bind_eq_some_iff] at h
    obtain ⟨w', hw, x', hx, h⟩ := h
    obtain ⟨hwlt, rfl⟩ := charSextet_eq_some hw
    obtain ⟨hxlt, rfl⟩ := charSextet_eq_some hx
    split_ifs at h with hbits
    cases h
    have hfirst : (w' * 4 + x' / 16) / 4 = w' := by omega
    have hsecond : (w' * 4 + x' / 16) % 4 * 16 = x' := by omega
    rw [encode64, toNat_ofNat_of_lt (by omega), hfirst, hsecond]
  | case4 w x y =>
    rw [decode64] at h
    simp only [Option.bind_eq_bind, Option.bind_eq_some_iff] at h
    obtain ⟨w', hw, x', hx, y', hy, h⟩ := h
    obtain ⟨hwlt, rfl⟩ := charSextet_eq_some hw
    obtain ⟨hxlt, rfl⟩ := charSextet_eq_some hx
    obtain ⟨hylt, rfl⟩ := charSextet_eq_some hy
    split_ifs at h with hbits
    cases h
    obtain ⟨hfirst, hsecond, _⟩ := @sextets_of_bytes w' x' y' 0 hxlt hylt (by omega)
    have hthird : (x' % 16 * 16 + y' / 4) % 16 * 4 = y' := by omega
    rw [encode64, toNat_ofNat_of_lt (by omega), toNat_ofNat_of_lt (by omega), hfirst, hsecond,
      hthird]
  | case5 w x y z rest ih =>
    rw [decode64] at h
    simp only [Option.bind_eq_bind, Option.bind_eq_some_iff] at h
    obtain ⟨w', hw, x', hx, y', hy, z', hz, tail, htail, h⟩ := h
    obtain ⟨hwlt, rfl⟩ := charSextet_eq_some hw
    obtain ⟨hxlt, rfl⟩ := charSextet_eq_some hx
    obtain ⟨hylt, rfl⟩ := charSextet_eq_some hy
    obtain ⟨hzlt, rfl⟩ := charSextet_eq_some hz
    cases h
    obtain ⟨hfirst, hsecond, hthird, hfourth⟩ := @sextets_of_bytes w' x' y' z' hxlt hylt hzlt
    rw [encode64, toNat_ofNat_of_lt (by omega), toNat_ofNat_of_lt (by omega),
      toNat_ofNat_of_lt (by omega), hfirst, hsecond, hthird, hfourth, ih htail]

theorem ofNat_eq_of_mod {n : Nat} {b : UInt8} (h : n % 256 = b.toNat) : UInt8.ofNat n = b := by
  rw [← UInt8.toNat_inj, UInt8.toNat_ofNat', h]

theorem toBe64_fromBe {bs : List UInt8} (h : bs.length = 8) : toBe64 (fromBe bs) = bs := by
  match bs, h with
  | [a, b, c, d, e, f, g, i], _ =>
    have ha := a.toNat_lt
    have hb := b.toNat_lt
    have hc := c.toNat_lt
    have hd := d.toNat_lt
    have he := e.toNat_lt
    have hf := f.toNat_lt
    have hg := g.toNat_lt
    have hi := i.toNat_lt
    simp only [fromBe, List.foldl_cons, List.foldl_nil, toBe64, List.cons.injEq, and_true]
    refine ⟨?_, ?_, ?_, ?_, ?_, ?_, ?_, ?_⟩ <;> exact ofNat_eq_of_mod (by omega)

section Order

variable {bs cs : List UInt8}

theorem fromBe_cons (b : UInt8) (bs : List UInt8) :
    fromBe (b :: bs) = b.toNat * 256 ^ bs.length + fromBe bs := by
  have hfold : ∀ (bs : List UInt8) (n : Nat),
      bs.foldl (fun acc b => acc * 256 + b.toNat) n = n * 256 ^ bs.length + fromBe bs := by
    intro bs
    induction bs with
    | nil =>
      intro n
      simp [fromBe]
    | cons b bs ih =>
      intro n
      have hcons : fromBe (b :: bs) = (0 * 256 + b.toNat) * 256 ^ bs.length + fromBe bs := ih _
      rw [List.foldl_cons, ih, hcons, List.length_cons, Nat.pow_succ]
      ring
  have hzero : 0 * 256 + b.toNat = b.toNat := by omega
  rw [fromBe, List.foldl_cons, hfold, hzero]

theorem fromBe_lt (bs : List UInt8) : fromBe bs < 256 ^ bs.length := by
  induction bs with
  | nil => exact Nat.one_pos
  | cons b bs ih =>
    have hb := b.toNat_lt
    rw [fromBe_cons, List.length_cons, Nat.pow_succ]
    nlinarith

theorem fromBe_lt_iff (h : bs.length = cs.length) : fromBe bs < fromBe cs ↔ bs < cs := by
  induction bs generalizing cs with
  | nil =>
    cases cs with
    | nil => simp
    | cons => cases h
  | cons b bs ih =>
    cases cs with
    | nil => cases h
    | cons c cs =>
      have hlen : bs.length = cs.length := Nat.succ.inj h
      have hlo := fromBe_lt bs
      have hlo' := fromBe_lt cs
      rw [List.cons_lt_cons_iff, ← ih hlen, fromBe_cons, fromBe_cons, ← UInt8.toNat_inj,
        UInt8.lt_iff_toNat_lt]
      rw [hlen] at hlo ⊢
      constructor
      · intro hlt
        rcases Nat.lt_trichotomy b.toNat c.toNat with hb | hb | hb
        · exact Or.inl hb
        · exact Or.inr ⟨hb, by rw [hb] at hlt; omega⟩
        · nlinarith
      · rintro (hb | ⟨hb, hlt⟩)
        · nlinarith
        · rw [hb]
          omega

theorem toBe64_lt_iff {m n : Nat} (hm : m < 2 ^ 64) (hn : n < 2 ^ 64) :
    toBe64 m < toBe64 n ↔ m < n := by
  have hlt := @fromBe_lt_iff (toBe64 m) (toBe64 n) rfl
  rwa [fromBe_toBe64, fromBe_toBe64, Nat.mod_eq_of_lt hm, Nat.mod_eq_of_lt hn, Iff.comm] at hlt

theorem append_lt_append_iff {bs' cs' : List UInt8} (h : bs.length = cs.length) :
    bs ++ bs' < cs ++ cs' ↔ bs < cs ∨ bs = cs ∧ bs' < cs' := by
  induction bs generalizing cs with
  | nil =>
    cases cs with
    | nil => simp
    | cons => cases h
  | cons b bs ih =>
    cases cs with
    | nil => cases h
    | cons c cs =>
      rw [List.cons_append, List.cons_append, List.cons_lt_cons_iff, List.cons_lt_cons_iff,
        ih (Nat.succ.inj h), List.cons.injEq]
      tauto

end Order

end Bytes
