import OpenbsdKernel.Net80211.Ccmp.Basic

/-!
# The blocks and the stream of CCMP

The blocks of `ieee80211_ccmp_phase1` are those of CCM with `M = 8` and `L = 2`. The local variables
of the loops are, after any number of octets, the running value of the CBC-MAC of the clear text and
the block of the key stream that the next octet comes from.
-/
namespace OpenbsdKernel.Ieee80211

open Store UipcMbuf Ccm

section Phase1

variable (wh : Octets) (pn : UInt64)

@[simp] theorem length_addrAt (o : ℕ) : (addrAt wh o).length = 6 := by
  rw [addrAt, List.length_map, List.length_range, IEEE80211_ADDR_LEN]

theorem length_nonce : (nonce wh pn).length = 13 := by
  simp [nonce, i_addr2]

theorem length_aad : (aad wh).length =
    22 + (if has_addr4 wh then 6 else 0) + (if has_qos wh then 2 else 0) := by
  simp only [aad, i_addr1, i_addr2, i_addr3, i_addr4, List.length_append, length_addrAt, List.length_cons,
    List.length_nil]
  split <;> split <;> simp

theorem length_aad_le : (aad wh).length ≤ 30 := by
  rw [length_aad]
  split <;> split <;> omega

theorem length_aad_pos : 22 ≤ (aad wh).length := by
  rw [length_aad]
  omega

/-- Zeros behind the octets are padding. -/
theorem block_append_zeros (xs : List UInt8) (k : ℕ) : block (xs ++ List.replicate k 0) = block xs := by
  funext i
  rw [block, block]
  by_cases hi : i.val < xs.length
  · rw [List.getD_append _ _ _ _ hi]
  · rw [List.getD_append_right _ _ _ _ (by omega), List.getD_eq_default xs _ (by omega),
      List.getD_eq_getElem?_getD, List.getElem?_getD_replicate_default_eq]

theorem field_two (n : ℕ) : field 2 n = [UInt8.ofNat (n / 256), UInt8.ofNat n] := by
  rw [field]
  simp [List.range_succ]

theorem ofInt_natCast (n : ℕ) : UInt8.ofInt n = UInt8.ofNat n := by
  apply UInt8.toNat_inj.1
  rw [UInt8.ofInt, UInt8.toNat_ofNat', UInt8.toNat_ofNat']
  omega

theorem ofNat_mod (n : ℕ) : UInt8.ofNat (n % 256) = UInt8.ofNat n := by
  apply UInt8.toNat_inj.1
  rw [UInt8.toNat_ofNat', UInt8.toNat_ofNat']
  omega

theorem lengthOctets (n : ℕ) :
    [UInt8.ofInt ((n : ℤ) >>> (8 : ℕ)), UInt8.ofInt ((n : ℤ) % 256)] = field 2 n := by
  have hshift : (n : ℤ) >>> (8 : ℕ) = ((n / 256 : ℕ) : ℤ) := by
    rw [Int.shiftRight_eq_div_pow]
    simp
  have hmod : (n : ℤ) % 256 = ((n % 256 : ℕ) : ℤ) := by simp
  rw [hshift, hmod, ofInt_natCast, ofInt_natCast, ofNat_mod, field_two]

/-- `ieee80211_ccmp_phase1` computes the first blocks of CCM. -/
theorem ccmp_phase1_spec (E : Block → Block) (n : ℕ) :
    ccmp_phase1 E wh pn n = ⟨headMac E 8 2 (nonce wh pn) (aad wh) n, counterBlock 2 (nonce wh pn) 0,
      E (counterBlock 2 (nonce wh pn) 0)⟩ := by
  have hle := length_aad_le wh
  have hpos := length_aad_pos wh
  have hdata : encodeData (aad wh) = field 2 (aad wh).length ++ aad wh := by
    rw [encodeData, if_neg (by omega), if_pos (by omega)]
  have hlen : (field 2 (aad wh).length ++ aad wh).length = (aad wh).length + 2 := by
    rw [field_two]
    simp
  have hblocks : blocks (encodeData (aad wh)) =
      [block (field 2 (aad wh).length ++ aad wh), block ((field 2 (aad wh).length ++ aad wh).drop 16)] := by
    rw [hdata, blocks, hlen, show ((aad wh).length + 2 + 15) / 16 = 2 by omega]
    rfl
  have hla : [UInt8.ofNat ((aad wh).length >>> 8), UInt8.ofNat ((aad wh).length &&& 0xff)] =
      field 2 (aad wh).length := by
    rw [field_two, Nat.shiftRight_eq_div_pow, show (0xff : ℕ) = 2 ^ 8 - 1 from rfl, Nat.and_two_pow_sub_one_eq_mod,
      ofNat_mod]
  have hfirst : firstBlock 8 2 (nonce wh pn) (aad wh) n = block (89 :: (nonce wh pn ++ field 2 n)) := by
    rw [firstBlock, if_neg (by omega)]
    rfl
  have hcounter : counterBlock 2 (nonce wh pn) 0 = block (1 :: (nonce wh pn ++ [0, 0])) := rfl
  rw [ccmp_phase1, lengthOctets, hla, List.drop_append_of_le_length (by omega), block_append_zeros, block_append_zeros, ← hfirst,
    ← hcounter, headMac, hblocks, cbc, List.foldl_cons, List.foldl_cons, List.foldl_cons, List.foldl_nil,
    zero_xorBlock]

end Phase1

section Stream

variable (E : Block → Block) (X : Block) (nc : List UInt8)

/-- The local variables of the loops after the clear text. -/
def cipherAt (clear : List UInt8) : Cipher :=
  ⟨running E X clear, counterBlock 2 nc (1 + clear.length / 16), E (counterBlock 2 nc (1 + clear.length / 16)),
    UInt16.ofNat (1 + clear.length / 16), clear.length % 16⟩

variable {nc}

theorem setCtr_counterBlock (hnc : nc.length = 13) (i j : ℕ) :
    setCtr (counterBlock 2 nc i) (UInt16.ofNat j) = counterBlock 2 nc j := by
  have hhigh : (UInt16.ofNat j >>> 8).toUInt8 = UInt8.ofNat (j / 256) := by
    apply UInt8.toNat_inj.1
    simp [UInt16.toNat_ofNat', Nat.shiftRight_eq_div_pow]
    omega
  have hlow : (UInt16.ofNat j &&& 0xff).toUInt8 = UInt8.ofNat j := by
    apply UInt8.toNat_inj.1
    have hand (n : ℕ) : n &&& 255 = n % 256 := Nat.and_two_pow_sub_one_eq_mod n 8
    simp [hand]
  funext k
  rw [setCtr, counterBlock, counterBlock, field_two, field_two, hhigh, hlow, Function.update_apply,
    Function.update_apply, block, block]
  obtain ⟨k, hk⟩ := k
  by_cases hlast : k = 15
  · subst hlast
    rw [if_pos (show (⟨15, hk⟩ : Fin 16) = 15 from rfl), List.getD_cons_succ,
      List.getD_append_right _ _ _ _ (by omega), hnc]
    rfl
  by_cases hbefore : k = 14
  · subst hbefore
    rw [if_neg (show ¬(⟨14, hk⟩ : Fin 16) = 15 by simp), if_pos (show (⟨14, hk⟩ : Fin 16) = 14 from rfl),
      List.getD_cons_succ, List.getD_append_right _ _ _ _ (by omega), hnc]
    rfl
  rw [if_neg (fun h => hlast (Fin.val_eq_of_eq h)), if_neg (fun h => hbefore (Fin.val_eq_of_eq h))]
  cases k with
  | zero => rfl
  | succ k =>
    dsimp only
    rw [List.getD_cons_succ, List.getD_cons_succ, List.getD_append _ _ _ _ (by omega),
      List.getD_append _ _ _ _ (by omega)]

theorem cipherAt_start (hnc : nc.length = 13) :
    Cipher.start E ⟨X, counterBlock 2 nc 0, E (counterBlock 2 nc 0)⟩ = cipherAt E X nc [] := by
  have hctr : setCtr (counterBlock 2 nc 0) 1 = counterBlock 2 nc 1 := setCtr_counterBlock hnc 0 1
  rw [Cipher.start, cipherAt, hctr, running_nil]
  rfl

theorem cipherAt_next (hnc : nc.length = 13) (clear : List UInt8) (x : UInt8) :
    (cipherAt E X nc clear).next E x = cipherAt E X nc (clear ++ [x]) := by
  have hmod := Nat.div_add_mod clear.length 16
  rw [Cipher.next, cipherAt, cipherAt, running_append_singleton, List.length_append, List.length_singleton]
  dsimp only
  by_cases hroom : clear.length % 16 + 1 < 16
  · rw [if_pos hroom, if_pos hroom, show (clear.length + 1) / 16 = clear.length / 16 by omega,
      show (clear.length + 1) % 16 = clear.length % 16 + 1 by omega]
  · have hctr : UInt16.ofNat (1 + clear.length / 16) + 1 = UInt16.ofNat (1 + (clear.length / 16 + 1)) :=
      (UInt16.ofNat_add _ 1).symm
    rw [if_neg hroom, if_neg hroom, show (clear.length + 1) / 16 = clear.length / 16 + 1 by omega,
      show (clear.length + 1) % 16 = 0 by omega, hctr, setCtr_counterBlock hnc]

theorem cipherAt_key (clear : List UInt8) : (cipherAt E X nc clear).key = keyOctet E 2 nc clear.length := by
  rw [Cipher.key, keyOctet, cipherAt]
  dsimp only
  congr 1
  apply Fin.ext
  simp

theorem cipherAt_finish (clear : List UInt8) : (cipherAt E X nc clear).finish E = cbc E X (blocks clear) := by
  rw [Cipher.finish, cbc_blocks, cipherAt]
  dsimp only
  by_cases hfull : clear.length % 16 = 0
  · rw [if_pos hfull, if_neg (not_not.2 hfull)]
  · rw [if_neg hfull, if_pos hfull]

/-- The clear text among the octets before and after. -/
def Dir.clearText (dir : Dir) (xs ys : List UInt8) : List UInt8 :=
  match dir with
  | .encrypt => xs
  | .decrypt => ys

theorem Dir.clearText_cons (dir : Dir) (x y : UInt8) (xs ys : List UInt8) :
    dir.clearText (x :: xs) (y :: ys) = dir.clear x y :: dir.clearText xs ys := by
  cases dir <;> rfl

theorem copyin_cons (mem : Mem) (b : Buf) (a : ℕ) (v : UInt8) (vs : List UInt8) :
    mem.copyin b a (v :: vs) = (mem.copyin b a [v]).copyin b (a + 1) vs :=
  congrArg (fun s => { mem with store := s }) (mem.store.write_cons b a v vs)

/-- The loop over the octets xors the key stream into them and goes on with the CBC-MAC. -/
theorem octetLoop_spec (hnc : nc.length = 13) (dir : Dir) {src dst : Buf} (hne : src ≠ dst) (i p q : ℕ) (mem : Mem)
    (clear : List UInt8) :
    octetLoop E dir src dst i p q mem (cipherAt E X nc clear) =
      (mem.copyin dst q (xorStream (keyOctet E 2 nc) clear.length (mem.store.read (region src p i))),
        cipherAt E X nc (clear ++ dir.clearText (mem.store.read (region src p i))
          (xorStream (keyOctet E 2 nc) clear.length (mem.store.read (region src p i))))) := by
  induction i generalizing p q mem clear with
  | zero =>
    have hnil : dir.clearText [] [] = [] := by cases dir <;> rfl
    rw [octetLoop, show region src p 0 = [] from rfl, read_nil, xorStream, hnil, List.append_nil, Mem.copyin,
      write_nil]
  | succ i ih =>
    have hread (mem : Mem) : mem.store.read (region src p (i + 1)) =
        mem.store src p :: mem.store.read (region src (p + 1) i) := by
      rw [region_succ]
      rfl
    have hkeep (vs : List UInt8) : (mem.copyin dst q vs).store.read (region src (p + 1) i) =
        mem.store.read (region src (p + 1) i) :=
      read_write_of_ne _ _ _ _ fun l hl => by rw [(mem_region.1 hl).1]; exact hne
    rw [octetLoop, cipherAt_key, cipherAt_next E X hnc, ih, hkeep, hread, xorStream, Dir.clearText_cons, List.length_append,
      List.length_singleton, List.append_assoc, List.singleton_append]
    rw [copyin_cons mem dst q _ (xorStream _ _ _)]

end Stream

end OpenbsdKernel.Ieee80211
