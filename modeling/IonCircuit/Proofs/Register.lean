import IonCircuit.Register
import Mathlib.Data.Matrix.Mul

/-! Basis states as bits of qubits: the groups of a list of qubits divide the register. -/
namespace IonCircuit.Register
variable {width i j k s q p : ℕ} {qubits rest : List ℕ}

/-- The bit of a qubit in a basis state. -/
def bit (width q i : ℕ) : Bool := i.testBit (width - 1 - q)

/-- The listed qubits are distinct members of the register. -/
structure Addresses (width : ℕ) (qubits : List ℕ) : Prop where
  nodup : qubits.Nodup
  lt : ∀ q ∈ qubits, q < width

/-- Two states agree on every qubit that is not listed. -/
def AgreeOff (width : ℕ) (qubits : List ℕ) (i j : ℕ) : Prop :=
  ∀ q < width, q ∉ qubits → bit width q i = bit width q j

instance : Decidable (AgreeOff width qubits i j) :=
  inferInstanceAs (Decidable (∀ q < width, q ∉ qubits → bit width q i = bit width q j))

/-- The state of the listed qubits within a state of the register. -/
def restrict (width : ℕ) : List ℕ → ℕ → ℕ
  | [], _ => 0
  | q :: rest, i => 2 ^ rest.length * (bit width q i).toNat + restrict width rest i

/-- The member of its group in which a state has every listed qubit clear. -/
def base (width : ℕ) (qubits : List ℕ) (i : ℕ) : ℕ :=
  i ^^^ (i &&& union (masks width qubits))

/-- The state that agrees with `i` off the listed qubits and reads `s` on them. -/
def place (width : ℕ) (qubits : List ℕ) (i s : ℕ) : ℕ :=
  deposit (masks width qubits) (base width qubits i) s

theorem Addresses.tail (h : Addresses width (q :: rest)) : Addresses width rest :=
  ⟨(List.nodup_cons.mp h.nodup).2, fun p hp => h.lt p (List.mem_cons_of_mem q hp)⟩

theorem eq_of_bit_eq (hi : i < 2 ^ width) (hj : j < 2 ^ width)
    (h : ∀ q < width, bit width q i = bit width q j) : i = j := by
  apply Nat.eq_of_testBit_eq
  intro p
  by_cases hp : p < width
  · have hq := h (width - 1 - p) (by omega)
    simpa only [bit, show width - 1 - (width - 1 - p) = p by omega] using hq
  · have hle : 2 ^ width ≤ 2 ^ p := Nat.pow_le_pow_right two_pos (by omega)
    rw [Nat.testBit_lt_two_pow (by omega), Nat.testBit_lt_two_pow (by omega)]

theorem mask_lt (hq : q < width) : mask width q < 2 ^ width :=
  Nat.pow_lt_pow_right one_lt_two (by omega)

theorem bit_mask (hp : p < width) (hq : q < width) :
    bit width p (mask width q) = decide (p = q) := by
  rw [bit, mask, Nat.testBit_two_pow]
  exact decide_eq_decide.mpr (by omega)

theorem bit_or : bit width q (i ||| j) = (bit width q i || bit width q j) :=
  Nat.testBit_or ..

theorem bit_foldl_or (masks : List ℕ) (i : ℕ) :
    bit width p (masks.foldl (· ||| ·) i) = (bit width p i || masks.any (bit width p)) := by
  induction masks generalizing i with
  | nil => simp
  | cons m masks ih => simp [ih, bit_or, Bool.or_assoc]

theorem bit_union (h : ∀ q ∈ qubits, q < width) (hp : p < width) :
    bit width p (union (masks width qubits)) = decide (p ∈ qubits) := by
  have hany : (masks width qubits).any (bit width p) = decide (p ∈ qubits) := by
    rw [Bool.eq_iff_iff]
    simp only [masks, List.any_map, List.any_eq_true, Function.comp_apply, decide_eq_true_eq]
    constructor
    · rintro ⟨q, hq, hb⟩
      rw [bit_mask hp (h q hq)] at hb
      rwa [of_decide_eq_true hb]
    · intro hmem
      exact ⟨p, hmem, by simp [bit_mask hp hp]⟩
  rw [union, bit_foldl_or, hany]
  simp [bit]

theorem bit_base (h : ∀ q ∈ qubits, q < width) (hp : p < width) :
    bit width p (base width qubits i) = (bit width p i && !decide (p ∈ qubits)) := by
  rw [← bit_union h hp]
  simp only [bit, base, Nat.testBit_xor, Nat.testBit_and]
  cases i.testBit (width - 1 - p) <;> simp

theorem agreeOff_base (h : ∀ q ∈ qubits, q < width) :
    AgreeOff width qubits i (base width qubits i) := by
  intro q hq hmem
  simp [bit_base h hq, hmem]

theorem AgreeOff.symm (h : AgreeOff width qubits i j) : AgreeOff width qubits j i :=
  fun q hq hmem => (h q hq hmem).symm

theorem AgreeOff.trans (hij : AgreeOff width qubits i j) (hjk : AgreeOff width qubits j k) :
    AgreeOff width qubits i k :=
  fun q hq hmem => (hij q hq hmem).trans (hjk q hq hmem)

theorem base_lt (hi : i < 2 ^ width) : base width qubits i < 2 ^ width :=
  Nat.xor_lt_two_pow hi (Nat.lt_of_le_of_lt Nat.and_le_left hi)

theorem deposit_lt (h : ∀ q ∈ qubits, q < width) (hi : i < 2 ^ width) :
    deposit (masks width qubits) i s < 2 ^ width := by
  induction qubits generalizing i with
  | nil => exact hi
  | cons q rest ih =>
    have hrest : ∀ p ∈ rest, p < width := fun p hp => h p (List.mem_cons_of_mem q hp)
    rw [masks, List.map_cons, deposit]
    apply ih hrest
    split
    · exact Nat.or_lt_two_pow hi (mask_lt (h q List.mem_cons_self))
    · exact hi

theorem bit_deposit_of_notMem (h : ∀ q ∈ qubits, q < width) (hp : p < width)
    (hmem : p ∉ qubits) :
    bit width p (deposit (masks width qubits) i s) = bit width p i := by
  induction qubits generalizing i with
  | nil => rfl
  | cons q rest ih =>
    rw [List.mem_cons, not_or] at hmem
    have hrest : ∀ p ∈ rest, p < width := fun p hp => h p (List.mem_cons_of_mem q hp)
    rw [masks, List.map_cons, deposit]
    refine (ih hrest hmem.2).trans ?_
    split
    · simp [bit_or, bit_mask hp (h q List.mem_cons_self), hmem.1]
    · rfl

theorem restrict_lt : restrict width qubits i < 2 ^ qubits.length := by
  induction qubits with
  | nil => simp [restrict]
  | cons q rest ih =>
    rw [restrict, List.length_cons, pow_succ]
    cases bit width q i <;> simp <;> omega

/-- Reading back what was deposited on clear qubits. -/
theorem restrict_deposit (h : Addresses width qubits)
    (hclear : ∀ q ∈ qubits, bit width q i = false) :
    restrict width qubits (deposit (masks width qubits) i s) = s % 2 ^ qubits.length := by
  induction qubits generalizing i with
  | nil => simp [restrict, Nat.mod_one]
  | cons q rest ih =>
    have hq : q < width := h.lt q List.mem_cons_self
    have hnot : q ∉ rest := (List.nodup_cons.mp h.nodup).1
    rw [masks, List.map_cons, deposit, List.length_map]
    change restrict width (q :: rest) (deposit (masks width rest) _ s) = _
    rw [restrict, bit_deposit_of_notMem h.tail.lt hq hnot, ih h.tail, List.length_cons,
      Nat.mod_pow_succ, ← Nat.toNat_testBit, Nat.add_comm]
    · congr 3
      have hqc := hclear q List.mem_cons_self
      split
      · simp_all [bit_or, bit_mask hq hq]
      · simp_all
    · intro p hp
      have hne : p ≠ q := fun he => hnot (he ▸ hp)
      have hpc := hclear p (List.mem_cons_of_mem q hp)
      split
      · simp [bit_or, hpc, bit_mask (h.tail.lt p hp) hq, hne]
      · exact hpc

/-- What is read on some qubits and on their images is the same bit by bit. -/
theorem bit_eq_of_restrict_map_eq {σ : ℕ → ℕ}
    (h : restrict width (qubits.map σ) j = restrict width qubits i) (hq : q ∈ qubits) :
    bit width (σ q) j = bit width q i := by
  induction qubits with
  | nil => simp at hq
  | cons p rest ih =>
    rw [List.map_cons, restrict, restrict, List.length_map] at h
    have hi : restrict width rest i < 2 ^ rest.length := restrict_lt
    have hj : restrict width (rest.map σ) j < 2 ^ rest.length := List.length_map σ ▸ restrict_lt
    have hhead : bit width (σ p) j = bit width p i := by
      by_contra hne
      cases hbi : bit width p i <;> cases hbj : bit width (σ p) j <;>
        simp [hbi, hbj] at h hne <;> omega
    rcases List.mem_cons.mp hq with rfl | hmem
    · exact hhead
    · rw [hhead] at h
      exact ih (Nat.add_left_cancel h) hmem

theorem restrict_map_congr {σ : ℕ → ℕ} (h : ∀ q ∈ qubits, bit width (σ q) j = bit width q i) :
    restrict width (qubits.map σ) j = restrict width qubits i := by
  induction qubits with
  | nil => rfl
  | cons p rest ih =>
    rw [List.map_cons, restrict, restrict, List.length_map, h p List.mem_cons_self,
      ih fun q hq => h q (List.mem_cons_of_mem p hq)]

theorem bit_eq_of_restrict_eq (h : restrict width qubits i = restrict width qubits j)
    (hq : q ∈ qubits) : bit width q i = bit width q j := by
  have hid : restrict width (qubits.map id) i = restrict width qubits j := by rwa [List.map_id]
  exact bit_eq_of_restrict_map_eq hid hq

theorem restrict_congr (h : ∀ q ∈ qubits, bit width q i = bit width q j) :
    restrict width qubits i = restrict width qubits j := by
  have hid : restrict width (qubits.map id) i = restrict width qubits j := restrict_map_congr h
  rwa [List.map_id] at hid

/-- The two parts of a state determine it. -/
theorem AgreeOff.eq_of_restrict_eq (h : AgreeOff width qubits i j) (hi : i < 2 ^ width)
    (hj : j < 2 ^ width) (hr : restrict width qubits i = restrict width qubits j) : i = j := by
  apply eq_of_bit_eq hi hj
  intro q hq
  by_cases hmem : q ∈ qubits
  · exact bit_eq_of_restrict_eq hr hmem
  · exact h q hq hmem

theorem restrict_base (h : ∀ q ∈ qubits, q < width) :
    restrict width qubits (base width qubits i) = restrict width qubits 0 := by
  apply restrict_congr
  intro q hq
  rw [bit_base h (h q hq)]
  simp [hq, bit]

/-- Two states have one base exactly when they are in one group. -/
theorem base_eq_base_iff (h : ∀ q ∈ qubits, q < width) (hi : i < 2 ^ width)
    (hj : j < 2 ^ width) :
    base width qubits i = base width qubits j ↔ AgreeOff width qubits i j := by
  constructor
  · intro he
    have hb := agreeOff_base (i := i) h
    rw [he] at hb
    exact hb.trans (agreeOff_base h).symm
  · intro ha
    apply ((agreeOff_base h).symm.trans (ha.trans (agreeOff_base h))).eq_of_restrict_eq
      (base_lt hi) (base_lt hj)
    rw [restrict_base h, restrict_base h]

section Place
variable (h : Addresses width qubits)
include h

theorem place_lt (hi : i < 2 ^ width) : place width qubits i s < 2 ^ width :=
  deposit_lt h.lt (base_lt hi)

theorem agreeOff_place : AgreeOff width qubits i (place width qubits i s) := by
  intro q hq hmem
  rw [place, bit_deposit_of_notMem h.lt hq hmem]
  exact agreeOff_base h.lt q hq hmem

theorem restrict_place (hs : s < 2 ^ qubits.length) :
    restrict width qubits (place width qubits i s) = s := by
  rw [place, restrict_deposit h, Nat.mod_eq_of_lt hs]
  intro q hq
  simp [bit_base h.lt (h.lt q hq), hq]

theorem place_restrict (ha : AgreeOff width qubits i j) (hi : i < 2 ^ width)
    (hj : j < 2 ^ width) : place width qubits i (restrict width qubits j) = j := by
  apply ((agreeOff_place h).symm.trans ha).eq_of_restrict_eq (place_lt h hi) hj
  exact restrict_place h restrict_lt

/-- A sum over a group runs over the states of the listed qubits. -/
theorem sum_agreeOff {M : Type*} [AddCommMonoid M] (hi : i < 2 ^ width) (f : ℕ → M) :
    ∑ j ∈ Finset.univ.filter (fun j : Fin (2 ^ width) => AgreeOff width qubits i j), f j =
      ∑ s ∈ Finset.range (2 ^ qubits.length), f (place width qubits i s) := by
  refine Finset.sum_bij' (fun j _ => restrict width qubits j)
    (fun s _ => ⟨place width qubits i s, place_lt h hi⟩) ?_ ?_ ?_ ?_ ?_
  · intro j _
    exact Finset.mem_range.mpr restrict_lt
  · intro s _
    exact Finset.mem_filter.mpr ⟨Finset.mem_univ _, agreeOff_place h⟩
  · intro j hj
    exact Fin.ext (place_restrict h (Finset.mem_filter.mp hj).2 hi j.isLt)
  · intro s hs
    exact restrict_place h (Finset.mem_range.mp hs)
  · intro j hj
    rw [place_restrict h (Finset.mem_filter.mp hj).2 hi j.isLt]

end Place

theorem mem_bases : k ∈ bases width (masks width qubits) ↔
    k < 2 ^ width ∧ base width qubits k = k := by
  rw [bases, List.mem_filter, List.mem_range, decide_eq_true_eq, base]
  refine and_congr_right fun hk => ⟨fun hand => by simp [hand], fun hxor => ?_⟩
  apply Nat.eq_of_testBit_eq
  intro p
  have hp := congrArg (Nat.testBit · p) hxor
  simp only [Nat.testBit_xor, Nat.testBit_and, Nat.zero_testBit] at hp ⊢
  cases hkp : k.testBit p <;> simp_all

section Sweep
variable (h : Addresses width qubits)
include h

theorem base_mem_bases (hi : i < 2 ^ width) :
    base width qubits i ∈ bases width (masks width qubits) := by
  refine mem_bases.mpr ⟨base_lt hi, ?_⟩
  exact (base_eq_base_iff h.lt (base_lt hi) hi).mpr (agreeOff_base h.lt).symm

/-- The members of a group are the states with its base. -/
theorem mem_group (hk : k ∈ bases width (masks width qubits)) :
    i ∈ group (masks width qubits) k ↔ i < 2 ^ width ∧ base width qubits i = k := by
  obtain ⟨hlt, hbase⟩ := mem_bases.mp hk
  have hplace : ∀ s, deposit (masks width qubits) k s = place width qubits k s := by
    intro s
    rw [place, hbase]
  simp only [group, List.mem_map, List.mem_range, masks, List.length_map]
  constructor
  · rintro ⟨s, -, rfl⟩
    change deposit (masks width qubits) k s < _ ∧ base _ _ (deposit (masks width qubits) k s) = k
    rw [hplace]
    refine ⟨place_lt h hlt, ?_⟩
    conv_rhs => rw [← hbase]
    exact (base_eq_base_iff h.lt (place_lt h hlt) hlt).mpr (agreeOff_place h).symm
  · rintro ⟨hi, hib⟩
    refine ⟨restrict width qubits i, restrict_lt, ?_⟩
    refine (hplace _).trans (place_restrict h ?_ hlt hi)
    exact (base_eq_base_iff h.lt hlt hi).mp (hbase.trans hib.symm)

theorem group_nodup (hk : k ∈ bases width (masks width qubits)) :
    (group (masks width qubits) k).Nodup := by
  apply List.Nodup.map_on _ List.nodup_range
  intro s hs t ht he
  have hbase := (mem_bases.mp hk).2
  have hlen : (masks width qubits).length = qubits.length := List.length_map ..
  rw [List.mem_range, hlen] at hs ht
  have hr := congrArg (restrict width qubits) he
  rw [← hbase] at hr
  exact (restrict_place h hs).symm.trans (hr.trans (restrict_place h ht))

/-- Group after group, the sweep meets every state of the register once. -/
theorem sweep_perm : ((bases width (masks width qubits)).flatMap
    (group (masks width qubits))).Perm (List.range (2 ^ width)) := by
  rw [List.perm_ext_iff_of_nodup _ List.nodup_range]
  · intro i
    rw [List.mem_flatMap, List.mem_range]
    constructor
    · rintro ⟨k, hk, hi⟩
      exact ((mem_group h hk).mp hi).1
    · intro hi
      have hb := base_mem_bases h hi
      exact ⟨_, hb, (mem_group h hb).mpr ⟨hi, rfl⟩⟩
  · rw [List.nodup_flatMap]
    refine ⟨fun k hk => group_nodup h hk, ?_⟩
    refine List.Nodup.pairwise_of_forall_ne (List.nodup_range.filter _) ?_
    intro k hk l hl hne i hik hil
    exact hne (((mem_group h hk).mp hik).2.symm.trans ((mem_group h hl).mp hil).2)

end Sweep

end IonCircuit.Register
