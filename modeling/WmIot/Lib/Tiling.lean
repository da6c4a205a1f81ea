import Mathlib

/-!
# Tilings of an interval

A tiling cuts an interval of addresses into consecutive spans, each free or in use. No two free
spans of an `Apart` tiling are neighbours; `coalesce` puts a free span between two tilings and
keeps that.
-/

namespace WmIot.Tiling
set_option autoImplicit false

structure Span where
  addr : Nat
  size : Nat
  free : Bool
  deriving DecidableEq

/-- The spans follow one another from `lo` to `hi`. -/
def Tiles : Nat → List Span → Nat → Prop
  | lo, [], hi => lo = hi
  | lo, s :: T, hi => s.addr = lo ∧ Tiles (lo + s.size) T hi

def freeAddrs (T : List Span) : List Nat := (T.filter Span.free).map Span.addr

/-- The bytes of the free spans. -/
def freeBytes (T : List Span) : Nat := ((T.filter Span.free).map Span.size).sum

/-- No two neighbours are free. -/
def Apart (T : List Span) : Prop := T.IsChain fun x y => ¬ (x.free ∧ y.free)

section
variable {T A B : List Span} {s x y : Span} {lo mid hi : Nat}

@[simp] theorem freeAddrs_nil : freeAddrs [] = [] := rfl

@[simp] theorem freeAddrs_append : freeAddrs (A ++ B) = freeAddrs A ++ freeAddrs B := by
  simp [freeAddrs]

theorem freeAddrs_cons (s : Span) (T : List Span) :
    freeAddrs (s :: T) = if s.free then s.addr :: freeAddrs T else freeAddrs T := by
  cases h : s.free <;> simp [freeAddrs, h]

/-- The free span at a position of the free addresses. -/
theorem freeAddrs_split {a : Nat} {F G : List Nat} (h : freeAddrs T = F ++ a :: G) :
    ∃ A s B, T = A ++ s :: B ∧ s.free = true ∧ s.addr = a ∧ freeAddrs A = F ∧ freeAddrs B = G := by
  induction T generalizing F with
  | nil => simp at h
  | cons t T ih =>
    rw [freeAddrs_cons] at h
    cases ht : t.free with
    | false =>
      simp only [ht, Bool.false_eq_true, if_false] at h
      obtain ⟨A, s, B, rfl, hs, ha, hA, hB⟩ := ih h
      exact ⟨t :: A, s, B, rfl, hs, ha, by rw [freeAddrs_cons, ht, hA]; rfl, hB⟩
    | true =>
      simp only [ht, if_true] at h
      cases F with
      | nil =>
        obtain ⟨ha, hG⟩ := List.cons.inj h
        exact ⟨[], t, T, rfl, ht, ha, rfl, hG⟩
      | cons f F =>
        obtain ⟨hf, hrest⟩ := List.cons.inj h
        obtain ⟨A, s, B, rfl, hs, ha, hA, hB⟩ := ih hrest
        exact ⟨t :: A, s, B, rfl, hs, ha, by rw [freeAddrs_cons, ht, hA, hf]; rfl, hB⟩

theorem mem_freeAddrs {a : Nat} : a ∈ freeAddrs T ↔ ∃ s ∈ T, s.free = true ∧ s.addr = a := by
  simp [freeAddrs, and_assoc]

@[simp] theorem freeBytes_nil : freeBytes [] = 0 := rfl

@[simp] theorem freeBytes_append : freeBytes (A ++ B) = freeBytes A + freeBytes B := by
  simp [freeBytes]

theorem freeBytes_cons (s : Span) (T : List Span) :
    freeBytes (s :: T) = (if s.free then s.size else 0) + freeBytes T := by
  cases h : s.free <;> simp [freeBytes, h]

theorem tiles_append : Tiles lo (A ++ B) hi ↔ ∃ mid, Tiles lo A mid ∧ Tiles mid B hi := by
  induction A generalizing lo with
  | nil => simp [Tiles]
  | cons s A ih => simp only [List.cons_append, Tiles, ih, and_assoc, exists_and_left]

/-- Spans of one size at one address tile alike. -/
theorem Tiles.replace (h : Tiles lo (A ++ s :: B) hi) {t : Span} (haddr : t.addr = s.addr)
    (hsize : t.size = s.size) : Tiles lo (A ++ t :: B) hi := by
  simp only [tiles_append, Tiles] at h ⊢
  rwa [haddr, hsize]

theorem tiles_split : Tiles lo (A ++ s :: B) hi ↔ Tiles lo A s.addr ∧ Tiles (s.addr + s.size) B hi := by
  rw [tiles_append]
  constructor
  · rintro ⟨mid, hA, rfl, hB⟩
    exact ⟨hA, hB⟩
  · rintro ⟨hA, hB⟩
    exact ⟨s.addr, hA, rfl, hB⟩

theorem Tiles.le (h : Tiles lo T hi) : lo ≤ hi := by
  induction T generalizing lo with
  | nil => exact Nat.le_of_eq h
  | cons s T ih =>
    have hle := ih h.2
    omega

theorem Tiles.mem (h : Tiles lo T hi) (hs : s ∈ T) : lo ≤ s.addr ∧ s.addr + s.size ≤ hi := by
  obtain ⟨A, B, rfl⟩ := List.append_of_mem hs
  obtain ⟨hA, hB⟩ := tiles_split.mp h
  exact ⟨hA.le, hB.le⟩

theorem Tiles.sum (h : Tiles lo T hi) : lo + (T.map Span.size).sum = hi := by
  induction T generalizing lo with
  | nil => exact h
  | cons s T ih =>
    have hsum := ih h.2
    simp only [List.map_cons, List.sum_cons]
    omega

theorem Tiles.pairwise (h : Tiles lo T hi) : T.Pairwise fun x y => x.addr + x.size ≤ y.addr := by
  induction T generalizing lo with
  | nil => exact List.Pairwise.nil
  | cons s T ih =>
    obtain ⟨rfl, hT⟩ := h
    exact List.Pairwise.cons (fun y hy => (hT.mem hy).1) (ih hT)

theorem Tiles.freeAddrs_lt (h : Tiles lo T hi) (hpos : ∀ s ∈ T, 0 < s.size) :
    (freeAddrs T).Pairwise (· < ·) := by
  apply List.Pairwise.map Span.addr (fun x y hxy => hxy)
  apply List.Pairwise.filter
  apply h.pairwise.imp_of_mem
  intro x y hx _ hxy
  have hx := hpos x hx
  omega

/-- An address outside the tiling and those of the free spans are distinct. -/
theorem Tiles.nodup_cons {a : Nat} (h : Tiles lo T hi) (hpos : ∀ s ∈ T, 0 < s.size) (ha : a < lo ∨ hi < a) :
    (a :: freeAddrs T).Nodup := by
  refine List.nodup_cons.mpr ⟨fun hmem => ?_, (h.freeAddrs_lt hpos).imp fun hlt => Nat.ne_of_lt hlt⟩
  obtain ⟨s, hs, -, rfl⟩ := mem_freeAddrs.mp hmem
  have hin := h.mem hs
  omega

/-- A span is determined by its address. -/
theorem Tiles.addr_inj (h : Tiles lo T hi) (hpos : ∀ s ∈ T, 0 < s.size) (hx : x ∈ T) (hy : y ∈ T)
    (hxy : x.addr = y.addr) : x = y := by
  induction T generalizing lo with
  | nil => cases hx
  | cons s T ih =>
    obtain ⟨rfl, hT⟩ := h
    have hs := hpos s List.mem_cons_self
    rcases List.mem_cons.mp hx with hxs | hxT <;> rcases List.mem_cons.mp hy with hys | hyT
    · exact hxs.trans hys.symm
    · have hle := (hT.mem hyT).1
      rw [hxs] at hxy
      omega
    · have hle := (hT.mem hxT).1
      rw [hys] at hxy
      omega
    · exact ih hT (fun s hs => hpos s (List.mem_cons_of_mem _ hs)) hxT hyT

/-- Two spans of a tiling do not overlap. -/
theorem Tiles.disjoint (h : Tiles lo T hi) (hx : x ∈ T) (hy : y ∈ T) (hne : x ≠ y) :
    x.addr + x.size ≤ y.addr ∨ y.addr + y.size ≤ x.addr := by
  obtain ⟨A, B, rfl⟩ := List.append_of_mem hx
  obtain ⟨hA, hB⟩ := tiles_split.mp h
  rcases List.mem_append.mp hy with hy | hy
  · exact Or.inr (hA.mem hy).2
  · rcases List.mem_cons.mp hy with rfl | hy
    · exact absurd rfl hne
    · exact Or.inl (hB.mem hy).1

/-- Free spans that are not neighbours do not touch. -/
theorem Tiles.free_apart (h : Tiles lo T hi) (hpos : ∀ s ∈ T, 0 < s.size) (hap : Apart T) :
    (T.filter Span.free).Pairwise fun x y => x.addr + x.size < y.addr := by
  induction T generalizing lo with
  | nil => exact List.Pairwise.nil
  | cons s T ih =>
    obtain ⟨rfl, hT⟩ := h
    have hrest := ih hT (fun s hs => hpos s (List.mem_cons_of_mem _ hs)) hap.tail
    rw [List.filter_cons]
    split
    · rename_i hs
      refine List.Pairwise.cons (fun y hy => ?_) hrest
      obtain ⟨hy, hyfree⟩ := List.mem_filter.mp hy
      cases T with
      | nil => cases hy
      | cons t T =>
        have hst : ¬ (s.free = true ∧ t.free = true) := (List.isChain_cons_cons.mp hap).1
        rcases List.mem_cons.mp hy with rfl | hy
        · exact absurd ⟨hs, hyfree⟩ hst
        · have hpost := hpos t (List.mem_cons_of_mem _ List.mem_cons_self)
          have hle := (hT.2.mem hy).1
          omega
    · exact hrest

theorem Tiles.dvd_addr (h : Tiles lo T hi) {k : Nat} (hlo : k ∣ lo) (hk : ∀ s ∈ T, k ∣ s.size) (hs : s ∈ T) :
    k ∣ s.addr := by
  induction T generalizing lo with
  | nil => cases hs
  | cons t T ih =>
    obtain ⟨rfl, hT⟩ := h
    rcases List.mem_cons.mp hs with rfl | hs
    · exact hlo
    · exact ih hT (Nat.dvd_add hlo (hk t List.mem_cons_self)) (fun u hu => hk u (List.mem_cons_of_mem t hu)) hs

theorem Tiles.length_le (h : Tiles lo T hi) {k : Nat} (hk : ∀ s ∈ T, k ≤ s.size) :
    lo + k * T.length ≤ hi := by
  induction T generalizing lo with
  | nil => exact Nat.le_of_eq h
  | cons s T ih =>
    have hs := hk s List.mem_cons_self
    have hle := ih h.2 (fun t ht => hk t (List.mem_cons_of_mem _ ht))
    rw [List.length_cons, Nat.mul_succ]
    omega

end

/-! ## Merging -/

/-- A free span before `B`, merged with the first span of `B` when that is free. -/
def mergeRight (b : Span) : List Span → Span × List Span
  | [] => (b, [])
  | q :: B => if q.free then (⟨b.addr, b.size + q.size, true⟩, B) else (b, q :: B)

/-- A free span after `A`, merged with the last span of `A` when that is free. -/
def mergeLeft : List Span → Span → List Span × Span
  | [], b => ([], b)
  | [p], b => if p.free then ([], ⟨p.addr, p.size + b.size, true⟩) else ([p], b)
  | p :: q :: A, b => (p :: (mergeLeft (q :: A) b).1, (mergeLeft (q :: A) b).2)

/-- The tiling with the free span `b` between `A` and `B`. -/
def coalesce (A : List Span) (b : Span) (B : List Span) : List Span :=
  let left := mergeLeft A b
  let right := mergeRight left.2 B
  left.1 ++ right.1 :: right.2

section
variable {A B : List Span} {b p q : Span} {lo hi : Nat}

theorem mergeLeft_free (A' : List Span) (hp : p.free = true) :
    mergeLeft (A' ++ [p]) b = (A', ⟨p.addr, p.size + b.size, true⟩) := by
  induction A' with
  | nil => simp [mergeLeft, hp]
  | cons a A' ih =>
    cases A' with
    | nil => simp [mergeLeft, hp]
    | cons a' A' =>
      simp only [List.cons_append] at ih ⊢
      simp [mergeLeft, ih]

theorem mergeLeft_used (h : ∀ p ∈ A.getLast?, p.free = false) : mergeLeft A b = (A, b) := by
  induction A with
  | nil => rfl
  | cons a A ih =>
    cases A with
    | nil =>
      have ha : a.free = false := h a rfl
      simp [mergeLeft, ha]
    | cons a' A =>
      have hrest := ih (by simpa using h)
      simp [mergeLeft, hrest]

/-- Either the span before is free, or nothing is merged. -/
theorem mergeLeft_cases (A : List Span) (b : Span) :
    (∃ A' p, A = A' ++ [p] ∧ p.free = true ∧ mergeLeft A b = (A', ⟨p.addr, p.size + b.size, true⟩)) ∨
      ((∀ p ∈ A.getLast?, p.free = false) ∧ mergeLeft A b = (A, b)) := by
  rcases List.eq_nil_or_concat A with rfl | ⟨A', p, rfl⟩
  · exact Or.inr ⟨by simp, rfl⟩
  · rw [List.concat_eq_append]
    cases hp : p.free with
    | true => exact Or.inl ⟨A', p, rfl, hp, mergeLeft_free A' hp⟩
    | false =>
      have hlast : ∀ r ∈ (A' ++ [p]).getLast?, r.free = false := by simpa using hp
      exact Or.inr ⟨hlast, mergeLeft_used hlast⟩

theorem mergeRight_cases (b : Span) (B : List Span) :
    (∃ q B', B = q :: B' ∧ q.free = true ∧ mergeRight b B = (⟨b.addr, b.size + q.size, true⟩, B')) ∨
      ((∀ q ∈ B.head?, q.free = false) ∧ mergeRight b B = (b, B)) := by
  cases B with
  | nil => exact Or.inr ⟨by simp, rfl⟩
  | cons q B =>
    cases hq : q.free with
    | true => exact Or.inl ⟨q, B, rfl, hq, by simp [mergeRight, hq]⟩
    | false => exact Or.inr ⟨by simpa using hq, by simp [mergeRight, hq]⟩

theorem mergeRight_used (h : ∀ q ∈ B.head?, q.free = false) : mergeRight b B = (b, B) := by
  cases B with
  | nil => rfl
  | cons q B =>
    have hq : q.free = false := h q rfl
    simp [mergeRight, hq]

theorem mergeLeft_isFree (hb : b.free = true) : (mergeLeft A b).2.free = true := by
  rcases mergeLeft_cases A b with ⟨A', p, -, -, hm⟩ | ⟨-, hm⟩
  · rw [hm]
  · rw [hm]
    exact hb

theorem mergeRight_isFree (hb : b.free = true) : (mergeRight b B).1.free = true := by
  rcases mergeRight_cases b B with ⟨q, B', -, -, hm⟩ | ⟨-, hm⟩
  · rw [hm]
  · rw [hm]
    exact hb

theorem mergeRight_addr (b : Span) (B : List Span) : (mergeRight b B).1.addr = b.addr := by
  rcases mergeRight_cases b B with ⟨q, B', -, -, hm⟩ | ⟨-, hm⟩ <;> rw [hm]

theorem mergeRight_subset (b : Span) (B : List Span) : ∀ s ∈ (mergeRight b B).2, s ∈ B := by
  intro s hs
  rcases mergeRight_cases b B with ⟨q, B', rfl, -, hm⟩ | ⟨-, hm⟩
  · rw [hm] at hs
    exact List.mem_cons_of_mem q hs
  · rwa [hm] at hs

theorem mergeLeft_inUse (A : List Span) (b : Span) :
    (mergeLeft A b).1.filter (fun s => !s.free) = A.filter fun s => !s.free := by
  rcases mergeLeft_cases A b with ⟨A', p, rfl, hp, hm⟩ | ⟨-, hm⟩
  · simp [hm, hp]
  · rw [hm]

theorem mergeRight_inUse (b : Span) (B : List Span) :
    (mergeRight b B).2.filter (fun s => !s.free) = B.filter fun s => !s.free := by
  rcases mergeRight_cases b B with ⟨q, B', rfl, hq, hm⟩ | ⟨-, hm⟩
  · simp [hm, hq]
  · rw [hm]

theorem mergeLeft_bytes (A : List Span) (b : Span) :
    freeBytes (mergeLeft A b).1 + (mergeLeft A b).2.size = freeBytes A + b.size := by
  rcases mergeLeft_cases A b with ⟨A', p, rfl, hp, hm⟩ | ⟨-, hm⟩
  · rw [hm, freeBytes_append, freeBytes_cons, hp, freeBytes_nil]
    simp only [if_true]
    omega
  · rw [hm]

theorem mergeRight_bytes (b : Span) (B : List Span) :
    (mergeRight b B).1.size + freeBytes (mergeRight b B).2 = b.size + freeBytes B := by
  rcases mergeRight_cases b B with ⟨q, B', rfl, hq, hm⟩ | ⟨-, hm⟩
  · rw [hm, freeBytes_cons, hq]
    simp only [if_true]
    omega
  · rw [hm]

theorem mergeLeft_sizes {Q : Nat → Prop} (hadd : ∀ m n, Q m → Q n → Q (m + n))
    (hA : ∀ s ∈ A, Q s.size) (hb : Q b.size) :
    (∀ s ∈ (mergeLeft A b).1, Q s.size) ∧ Q (mergeLeft A b).2.size := by
  rcases mergeLeft_cases A b with ⟨A', p, rfl, -, hm⟩ | ⟨-, hm⟩
  · rw [hm]
    exact ⟨fun s hs => hA s (List.mem_append_left _ hs), hadd _ _ (hA p (by simp)) hb⟩
  · rw [hm]
    exact ⟨hA, hb⟩

theorem mergeRight_sizes {Q : Nat → Prop} (hadd : ∀ m n, Q m → Q n → Q (m + n))
    (hB : ∀ s ∈ B, Q s.size) (hb : Q b.size) :
    Q (mergeRight b B).1.size ∧ ∀ s ∈ (mergeRight b B).2, Q s.size := by
  rcases mergeRight_cases b B with ⟨q, B', rfl, -, hm⟩ | ⟨-, hm⟩
  · rw [hm]
    exact ⟨hadd _ _ hb (hB q List.mem_cons_self), fun s hs => hB s (List.mem_cons_of_mem _ hs)⟩
  · rw [hm]
    exact ⟨hb, hB⟩

/-- Behind a merge to the left no free span is the last. -/
theorem mergeLeft_apart (hA : Apart A) :
    Apart (mergeLeft A b).1 ∧ ∀ p ∈ (mergeLeft A b).1.getLast?, p.free = false := by
  rcases mergeLeft_cases A b with ⟨A', p, rfl, hp, hm⟩ | ⟨hlast, hm⟩
  · rw [hm]
    obtain ⟨hA', -, hjoin⟩ := List.isChain_append.mp hA
    refine ⟨hA', fun r hr => ?_⟩
    have hrp := hjoin r hr p rfl
    simpa [hp] using hrp
  · rw [hm]
    exact ⟨hA, hlast⟩

theorem mergeRight_apart (hB : Apart B) : Apart ((mergeRight b B).1 :: (mergeRight b B).2) := by
  rcases mergeRight_cases b B with ⟨q, B', rfl, hq, hm⟩ | ⟨hhead, hm⟩
  · rw [hm]
    obtain ⟨hjoin, hB'⟩ := List.isChain_cons.mp hB
    refine List.isChain_cons.mpr ⟨fun r hr => ?_, hB'⟩
    have hqr := hjoin r hr
    simpa [hq] using hqr
  · rw [hm]
    refine List.isChain_cons.mpr ⟨fun r hr => ?_, hB⟩
    simp [hhead r hr]

/-- `coalesce` keeps the spans in use and the number of free bytes. -/
theorem coalesce_inUse (hb : b.free = true) :
    (coalesce A b B).filter (fun s => !s.free) = (A ++ b :: B).filter fun s => !s.free := by
  have hright := mergeRight_isFree (B := B) (mergeLeft_isFree (A := A) hb)
  unfold coalesce
  simp only [List.filter_append, List.filter_cons, hb, hright, mergeLeft_inUse, mergeRight_inUse]
  rfl

theorem coalesce_freeBytes (hb : b.free = true) :
    freeBytes (coalesce A b B) = freeBytes (A ++ b :: B) := by
  have hisFree := mergeRight_isFree (B := B) (mergeLeft_isFree (A := A) hb)
  have hleft := mergeLeft_bytes A b
  have hright := mergeRight_bytes (mergeLeft A b).2 B
  unfold coalesce
  simp only [freeBytes_append, freeBytes_cons, hb, hisFree, if_true]
  omega

/-- What sums of sizes inherit, the sizes of the merged tiling have. -/
theorem coalesce_sizes {Q : Nat → Prop} (hadd : ∀ m n, Q m → Q n → Q (m + n))
    (hA : ∀ s ∈ A, Q s.size) (hb : Q b.size) (hB : ∀ s ∈ B, Q s.size) :
    ∀ s ∈ coalesce A b B, Q s.size := by
  obtain ⟨hA', hb'⟩ := mergeLeft_sizes hadd hA hb
  obtain ⟨hb'', hB'⟩ := mergeRight_sizes hadd hB hb'
  intro s hs
  unfold coalesce at hs
  rcases List.mem_append.mp hs with hs | hs
  · exact hA' s hs
  · rcases List.mem_cons.mp hs with rfl | hs
    · exact hb''
    · exact hB' s hs

theorem coalesce_apart (hA : Apart A) (hB : Apart B) : Apart (coalesce A b B) := by
  obtain ⟨hA', hlast⟩ := mergeLeft_apart (b := b) hA
  refine List.isChain_append.mpr ⟨hA', mergeRight_apart hB, fun p hp q _ => ?_⟩
  simp [hlast p hp]

theorem coalesce_tiles (h : Tiles lo (A ++ b :: B) hi) :
    Tiles lo (coalesce A b B) hi := by
  have hright : ∀ (c : Span) {mid : Nat}, Tiles mid (c :: B) hi →
      Tiles mid ((mergeRight c B).1 :: (mergeRight c B).2) hi := by
    intro c mid hc
    cases B with
    | nil => exact hc
    | cons q B =>
      rw [mergeRight]
      split
      · obtain ⟨hc₁, hq, hB⟩ := hc
        refine ⟨hc₁, ?_⟩
        rw [← Nat.add_assoc]
        exact hB
      · exact hc
  unfold coalesce
  rcases mergeLeft_cases A b with ⟨A', p, rfl, _, hm⟩ | ⟨_, hm⟩
  · rw [hm]
    rw [List.append_assoc, List.singleton_append] at h
    obtain ⟨hA, hb₁, hB⟩ := tiles_split.mp h
    refine tiles_append.mpr ⟨p.addr, hA, hright _ ⟨rfl, ?_⟩⟩
    rw [← Nat.add_assoc]
    exact hB
  · rw [hm]
    obtain ⟨mid, hA, hB⟩ := tiles_append.mp h
    exact tiles_append.mpr ⟨mid, hA, hright _ hB⟩

end

end WmIot.Tiling
