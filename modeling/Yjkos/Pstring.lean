import Yjkos.AtaDisk
import Yjkos.MiscMath

/-!
# Copies from and to physical memory

`kernel/lib/pstring.c`.  The functions go from page to page, and see each page
through the scratch mapping.  Physical memory and the memory of the caller are
functions from byte addresses.
-/

namespace Yjkos
namespace Pstring

open Ata (copyBytes)

/-- The loop which the three functions have in common.  `chunk` is what is
done to a piece of a page, given the physical address of the piece, the number
of bytes in front of it and its length. -/
def pageLoop {σ : Type} (chunk : ℕ → ℕ → ℕ → σ → σ) (len : ℕ) :
    ℕ → ℕ → ℕ → ℕ → σ → Except Fault σ
  | 0, _, _, _, _ => .error .outOfFuel
  | fuel + 1, page, offset, i, s =>
      if i < len then
        let copylen := min (len - i) (archPageSize - offset)
        pageLoop chunk len fuel (wrap (page + archPageSize)) 0 (i + copylen)
          (chunk (page + offset) i copylen s)
      else .ok s

/-- Every turn but the last one does at least one byte. -/
def overPages {σ : Type} (chunk : ℕ → ℕ → ℕ → σ → σ) (physaddr len : ℕ)
    (s : σ) : Except Fault σ :=
  let page := alignDown physaddr archPageSize
  pageLoop chunk len (len + 1) page (physaddr - page) 0 s

/-- Gives the memory of the caller. -/
def pmemcpyIn (phys memory : ℕ → BitVec 8) (dest src len : ℕ) :
    Except Fault (ℕ → BitVec 8) :=
  overPages (fun piece i n memory => copyBytes memory (dest + i) phys piece n)
    src len memory

/-- Gives the physical memory. -/
def pmemcpyOut (phys memory : ℕ → BitVec 8) (dest src len : ℕ) :
    Except Fault (ℕ → BitVec 8) :=
  overPages (fun piece i n phys => copyBytes phys piece memory (src + i) n)
    dest len phys

def pmemset (phys : ℕ → BitVec 8) (dest : ℕ) (byte : BitVec 8) (len : ℕ) :
    Except Fault (ℕ → BitVec 8) :=
  overPages (fun piece _ n phys => copyBytes phys piece (fun _ => byte) 0 n)
    dest len phys

/-! ## The pages make up the whole -/

section Loop

variable {σ : Type} {chunk : ℕ → ℕ → ℕ → σ → σ} {physaddr len : ℕ}

/-- The state behind the first `i` bytes decides the state behind the loop. -/
theorem pageLoop_eq {upTo : ℕ → σ} (hfits : physaddr + len ≤ 4294967296)
    (hchunk : ∀ i n, i + n ≤ len →
      chunk (physaddr + i) i n (upTo i) = upTo (i + n))
    {fuel page offset i : ℕ} (hoffset : offset < archPageSize)
    (hi : i ≤ len) (hpage : i < len → page + offset = physaddr + i)
    (hfuel : len - i < fuel) :
    pageLoop chunk len fuel page offset i (upTo i) = .ok (upTo len) := by
  induction fuel generalizing page offset i with
  | zero => omega
  | succ fuel ih =>
      rw [pageLoop]
      by_cases hlt : i < len
      · have hcopy : i + min (len - i) (archPageSize - offset) ≤ len := by
          omega
        rw [if_pos hlt]
        dsimp only
        rw [hpage hlt, hchunk _ _ hcopy]
        refine ih (by decide) hcopy ?_ (by omega)
        intro hmore
        have hfull : min (len - i) (archPageSize - offset) =
            archPageSize - offset := by omega
        have hnext := hpage hlt
        rw [hfull] at hmore ⊢
        rw [wrap_of_lt (by omega)]
        omega
      · have hend : i = len := by omega
        rw [if_neg hlt, hend]

theorem overPages_eq {upTo : ℕ → σ} (hfits : physaddr + len ≤ 4294967296)
    (hchunk : ∀ i n, i + n ≤ len →
      chunk (physaddr + i) i n (upTo i) = upTo (i + n)) :
    overPages chunk physaddr len (upTo 0) = .ok (upTo len) := by
  unfold overPages alignDown
  have hpos : 0 < archPageSize := by decide
  have hoffset : physaddr % archPageSize < archPageSize :=
    Nat.mod_lt physaddr hpos
  have hle := Nat.mod_le physaddr archPageSize
  dsimp only
  rw [Nat.sub_sub_self hle]
  exact pageLoop_eq hfits hchunk hoffset (Nat.zero_le len)
    (fun _ => by omega) (by omega)

end Loop

/-- Two adjoining copies are one copy. -/
theorem copyBytes_append (dest src : ℕ → BitVec 8) (destPos srcPos m n : ℕ) :
    copyBytes (copyBytes dest destPos src srcPos m) (destPos + m) src
        (srcPos + m) n =
      copyBytes dest destPos src srcPos (m + n) := by
  funext p
  unfold copyBytes
  by_cases hsecond : destPos + m ≤ p ∧ p < destPos + m + n
  · rw [if_pos hsecond, if_pos (by omega)]
    congr 1
    omega
  · rw [if_neg hsecond]
    by_cases hfirst : destPos ≤ p ∧ p < destPos + m
    · rw [if_pos hfirst, if_pos (by omega)]
    · rw [if_neg hfirst, if_neg (by omega)]

theorem copyBytes_zero (dest src : ℕ → BitVec 8) (destPos srcPos : ℕ) :
    copyBytes dest destPos src srcPos 0 = dest := by
  funext p
  unfold copyBytes
  rw [if_neg (by omega)]

section Copies

variable {phys memory : ℕ → BitVec 8} {dest src len : ℕ}

theorem pmemcpyIn_eq (hfits : src + len ≤ 4294967296) :
    pmemcpyIn phys memory dest src len =
      .ok (copyBytes memory dest phys src len) := by
  have h := @overPages_eq _ (fun piece i n memory =>
      copyBytes memory (dest + i) phys piece n) _ _
    (fun i => copyBytes memory dest phys src i) hfits
    (fun i n _ => copyBytes_append memory phys dest src i n)
  rwa [copyBytes_zero] at h

theorem pmemcpyOut_eq (hfits : dest + len ≤ 4294967296) :
    pmemcpyOut phys memory dest src len =
      .ok (copyBytes phys dest memory src len) := by
  have h := @overPages_eq _ (fun piece i n phys =>
      copyBytes phys piece memory (src + i) n) _ _
    (fun i => copyBytes phys dest memory src i) hfits
    (fun i n _ => copyBytes_append phys memory dest src i n)
  rwa [copyBytes_zero] at h

theorem pmemset_eq (byte : BitVec 8) (hfits : dest + len ≤ 4294967296) :
    pmemset phys dest byte len =
      .ok (copyBytes phys dest (fun _ => byte) 0 len) := by
  have h := @overPages_eq _ (fun piece _ n phys =>
      copyBytes phys piece (fun _ => byte) 0 n) _ _
    (fun i => copyBytes phys dest (fun _ => byte) 0 i) hfits
    (fun i n _ => copyBytes_append phys (fun _ => byte) dest 0 i n)
  rwa [copyBytes_zero] at h

end Copies

end Pstring
end Yjkos
