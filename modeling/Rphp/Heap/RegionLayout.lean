import Mathlib.Order.CompletePartialOrder
import Mathlib.Order.Interval.Set.Disjoint
import Rphp.Heap.Region

namespace Rphp.Heap
set_option autoImplicit true

open Rphp.Lib

theorem reserveFrom_some (h : reserveFrom mmap size = some (raw, got)) :
    mmap got = some raw ∧ 268435456 ≤ got.toNat ∧ got.toNat ≤ size.toNat := by
  induction hk : size.toNat using Nat.strongRecOn generalizing size with
  | ind k ih =>
    rw [reserveFrom] at h
    split at h
    · rename_i hle
      have hsize : 268435456 ≤ size.toNat := hle
      cases hm : mmap size with
      | some granted =>
        rw [hm] at h
        cases h
        exact ⟨hm, hsize, by omega⟩
      | none =>
        rw [hm] at h
        have hhalf : (size / 2).toNat = size.toNat / 2 := by
          rw [BitVec.toNat_udiv]
          rfl
        obtain ⟨hgot, hlow, hhigh⟩ := ih _ (by rw [hhalf]; omega) h rfl
        exact ⟨hgot, hlow, by omega⟩
    · cases h

/-- The mappings that the heap can obtain: their size, and their place in the lower half of the
address space, which is the half that belongs to the process. -/
structure Mapped (raw size : Usize) : Prop where
  low : 268435456 ≤ size.toNat
  high : size.toNat ≤ 68719476736
  inside : raw.toNat + size.toNat ≤ 9223372036854775808

theorem toNat_alignDown (x : Usize) : (x &&& ~~~(largeUnit - 1)).toNat = x.toNat / 65536 * 65536 :=
  toNat_and_not_lowMask x 16

theorem toNat_mediumPageMask (x : Usize) :
    (x &&& mediumPageMask).toNat = x.toNat / 1048576 * 1048576 :=
  toNat_and_not_lowMask x 20

theorem toNat_smallPageMask (x : Usize) :
    (x &&& smallPageMask).toNat = x.toNat / 65536 * 65536 :=
  toNat_and_not_lowMask x 16

theorem toNat_header (x : Usize) (h : x.toNat < 68719476736) :
    ((x >>> stackUnitShift) <<< headerShift).toNat = x.toNat / 65536 * 128 := by
  rw [BitVec.toNat_shiftLeft, BitVec.toNat_ushiftRight, Nat.shiftLeft_eq,
    Nat.shiftRight_eq_div_pow]
  simp only [stackUnitShift, headerShift]
  omega

theorem toNat_nextMultipleOf (a : Usize) (h : a.toNat < 68719476736) :
    (nextMultipleOf a smallPageSize).toNat = (a.toNat + 65535) / 65536 * 65536 := by
  have hmod : (a % smallPageSize).toNat = a.toNat % 65536 := BitVec.toNat_umod
  have hsmall : smallPageSize.toNat = 65536 := rfl
  unfold nextMultipleOf
  split
  · rename_i hzero
    rw [hzero] at hmod
    have hz : (0 : Usize).toNat = 0 := rfl
    omega
  · rename_i hne
    have hpos : (a % smallPageSize).toNat ≠ 0 := by
      intro hz
      exact hne (BitVec.eq_of_toNat_eq hz)
    rw [BitVec.toNat_add, BitVec.toNat_sub]
    omega

/-- The offsets of the parts of a mapping, as numbers. -/
structure Laid (raw size : Usize) (r : Range) : Prop where
  mapped : Mapped raw size
  base : r.base.toNat = (raw.toNat + 65535) / 65536 * 65536
  reserve : r.reserve.toNat = (raw.toNat + size.toNat - r.base.toNat) / 65536 * 65536
  half : r.half.toNat = r.reserve.toNat / 2 / 1048576 * 1048576
  largeStart : r.largeStart.toNat = r.half.toNat + r.reserve.toNat / 4 / 65536 * 65536
  smallStart : r.smallStart.toNat = (r.largeStart.toNat / 65536 * 128 + 65535) / 65536 * 65536

theorem laid_ofMapping (h : Mapped raw size) : Laid raw size (Range.ofMapping raw size) := by
  have hlow := h.low
  have hhigh := h.high
  have hinside := h.inside
  have hunit : largeUnit.toNat = 65536 := rfl
  have hone : (1 : Usize).toNat = 1 := rfl
  have hbase : (Range.ofMapping raw size).base.toNat =
      (raw.toNat + 65535) / 65536 * 65536 := by
    refine (toNat_alignDown _).trans ?_
    rw [BitVec.toNat_sub, BitVec.toNat_add]
    omega
  have hreserve : (Range.ofMapping raw size).reserve.toNat =
      (raw.toNat + size.toNat - (Range.ofMapping raw size).base.toNat) / 65536 * 65536 := by
    refine (toNat_alignDown (raw + size - (Range.ofMapping raw size).base)).trans ?_
    rw [BitVec.toNat_sub, BitVec.toNat_add]
    omega
  have hhalf : (Range.ofMapping raw size).half.toNat =
      (Range.ofMapping raw size).reserve.toNat / 2 / 1048576 * 1048576 := by
    refine (toNat_mediumPageMask ((Range.ofMapping raw size).reserve / 2)).trans ?_
    rw [BitVec.toNat_udiv]
    rfl
  have hlarge : (Range.ofMapping raw size).largeStart.toNat =
      (Range.ofMapping raw size).half.toNat +
        (Range.ofMapping raw size).reserve.toNat / 4 / 65536 * 65536 := by
    have hquarter := toNat_alignDown ((Range.ofMapping raw size).reserve / 4)
    rw [BitVec.toNat_udiv, show (4 : Usize).toNat = 4 from rfl] at hquarter
    have heq : (Range.ofMapping raw size).largeStart = (Range.ofMapping raw size).half +
        ((Range.ofMapping raw size).reserve / 4 &&& ~~~(largeUnit - 1)) := rfl
    rw [heq, BitVec.toNat_add, hquarter]
    omega
  refine ⟨h, hbase, hreserve, hhalf, hlarge, ?_⟩
  have hheader := toNat_header (Range.ofMapping raw size).largeStart (by omega)
  have heq : (Range.ofMapping raw size).smallStart = nextMultipleOf
      (((Range.ofMapping raw size).largeStart >>> stackUnitShift) <<< headerShift)
      smallPageSize := rfl
  rw [heq, toNat_nextMultipleOf _ (by omega), hheader]

namespace Laid

variable (h : Laid raw size r)

include h

/-- The parts follow each other inside the mapping. -/
theorem ordered : raw.toNat ≤ r.base.toNat ∧ r.smallStart.toNat ≤ r.half.toNat ∧
    r.half.toNat + 1048576 ≤ r.largeStart.toNat ∧ r.largeStart.toNat ≤ r.reserve.toNat ∧
    r.base.toNat + r.reserve.toNat ≤ raw.toNat + size.toNat := by
  obtain ⟨⟨hlow, hhigh, hinside⟩, hbase, hreserve, hhalf, hlarge, hsmall⟩ := h
  omega

theorem aligned : r.base.toNat % 65536 = 0 ∧ r.smallStart.toNat % 65536 = 0 ∧
    r.half.toNat % 65536 = 0 ∧ r.largeStart.toNat % 65536 = 0 := by
  obtain ⟨-, hbase, -, hhalf, hlarge, hsmall⟩ := h
  omega

theorem reserve_lt : r.reserve.toNat ≤ 68719476736 ∧
    r.base.toNat + r.reserve.toNat ≤ 9223372036854775808 := by
  obtain ⟨⟨hlow, hhigh, hinside⟩, hbase, hreserve, -, -, -⟩ := h
  omega

end Laid

/-- The alignment of the pages of a region. -/
def Region.alignment : Region → Nat
  | .medium => 1048576
  | _ => 65536

/-- The offsets at which a region begins and ends. -/
def Region.first (r : Range) : Region → Nat
  | .small => r.base.toNat + r.smallStart.toNat
  | .medium => r.base.toNat + r.half.toNat
  | .large => r.base.toNat + r.largeStart.toNat

def Region.last (r : Range) : Region → Nat
  | .small => r.base.toNat + r.half.toNat
  | .medium => r.base.toNat + r.largeStart.toNat
  | .large => r.base.toNat + r.reserve.toNat

theorem Laid.limit (h : Laid raw size r) (region : Region) :
    (r.limit region).toNat = region.last r := by
  have hordered := h.ordered
  have hlt := h.reserve_lt
  cases region <;> simp only [Range.limit, Region.last, BitVec.toNat_add] <;> omega

theorem Laid.cursor (h : Laid raw size r) (region : Region) :
    region.first r ≤ (r.cursor region).toNat ∧ (r.cursor region).toNat ≤ region.last r ∧
      (r.cursor region).toNat % region.alignment = 0 := by
  have hordered := h.ordered
  have haligned := h.aligned
  have hlt := h.reserve_lt
  cases region with
  | small =>
    simp only [Range.cursor, Region.first, Region.last, Region.alignment, BitVec.toNat_add]
    omega
  | medium =>
    have hone : (1 : Usize).toNat = 1 := rfl
    have hsize : mediumPageSize.toNat = 1048576 := rfl
    simp only [Range.cursor, Region.first, Region.last, Region.alignment, toNat_mediumPageMask]
    rw [BitVec.toNat_sub, BitVec.toNat_add, BitVec.toNat_add]
    omega
  | large =>
    simp only [Range.cursor, Region.first, Region.last, Region.alignment, BitVec.toNat_add]
    omega

/-- The number of bytes that a region is carved by. -/
def Region.Sized (bytes : Nat) : Region → Prop
  | .small => bytes = 65536
  | .medium => bytes = 1048576
  | .large => bytes % 65536 = 0 ∧ 65536 ≤ bytes ∧ bytes ≤ 4194304

theorem Request.bytes_sized (request : Request) (h : request.pooled = true) :
    request.region.Sized request.bytes.toNat := by
  cases request with
  | small => rfl
  | medium => rfl
  | large size =>
    have hsize : size.toNat ≤ 4194176 := by
      have hle : size ≤ largeMax := by simpa [Request.pooled] using h
      exact hle
    have hunit : largeUnit.toNat = 65536 := rfl
    have hheader : pageHeader.toNat = 128 := rfl
    have hone : (1 : Usize).toNat = 1 := rfl
    have hunits : (largeUnits size).toNat = (size.toNat + 128 + 65535) / 65536 := by
      unfold largeUnits
      rw [BitVec.toNat_udiv, BitVec.toNat_add, BitVec.toNat_add, BitVec.toNat_sub, hunit, hheader,
        hone]
      omega
    simp only [Request.region, Region.Sized, Request.bytes]
    rw [BitVec.toNat_mul, hunits, hunit]
    omega

/-- A page or block that lies in its region, where and as long as the region wants it. -/
structure Page.Placed (r : Range) (q : Page) : Prop where
  first : q.region.first r ≤ q.start.toNat
  last : q.start.toNat + q.bytes.toNat ≤ q.region.last r
  aligned : q.start.toNat % q.region.alignment = 0
  sized : q.region.Sized q.bytes.toNat

/-- What carving keeps: cursors inside their regions, and everything carved below them. -/
structure Pool.Inv (r : Range) (p : Pool) : Prop where
  cursor : ∀ region, region.first r ≤ (p.cursor region).toNat ∧
    (p.cursor region).toNat ≤ region.last r ∧ (p.cursor region).toNat % region.alignment = 0
  placed : ∀ q ∈ p.carved, q.Placed r
  below : ∀ q ∈ p.carved, q.start.toNat + q.bytes.toNat ≤ (p.cursor q.region).toNat
  disjoint : p.carved.Pairwise fun q q' =>
    q.region = q'.region → q'.start.toNat + q'.bytes.toNat ≤ q.start.toNat

theorem Pool.inv_ofRange (h : Laid raw size r) : (Pool.ofRange r).Inv r :=
  ⟨h.cursor, nofun, nofun, List.Pairwise.nil⟩

theorem Region.sized_aligned (h : Region.Sized n region) : n % region.alignment = 0 := by
  cases region <;> simp only [Region.Sized, Region.alignment] at * <;> omega

theorem Region.sized_le (h : Region.Sized n region) : 0 < n ∧ n ≤ 4194304 := by
  cases region <;> simp only [Region.Sized] at h <;> omega

/-- Claimed bytes start at the old cursor and end at the new one, below the limit. -/
theorem carve_some (h : Heap.carve cursor bytes limit = some (start, next))
    (hno : cursor.toNat + bytes.toNat < 18446744073709551616) :
    start = cursor ∧ next.toNat = cursor.toNat + bytes.toNat ∧ next.toNat ≤ limit.toNat := by
  unfold Heap.carve at h
  split at h
  · cases h
  · rename_i hle
    cases h
    have hnext : (cursor + bytes).toNat = cursor.toNat + bytes.toNat := by
      rw [BitVec.toNat_add]
      omega
    exact ⟨rfl, hnext, BitVec.not_lt.1 hle⟩

theorem Pool.inv_carve (h : Laid raw size r) (hp : p.Inv r) (request : Request) :
    (Pool.carve r p request).Inv r := by
  have hlt := h.reserve_lt
  have hordered := h.ordered
  have hlimit := h.limit request.region
  have hcursor := hp.cursor request.region
  unfold Pool.carve
  split
  · rename_i hpooled
    have hsized := request.bytes_sized hpooled
    have hbytes := Region.sized_le hsized
    have haligned := Region.sized_aligned hsized
    have hlast : request.region.last r ≤ r.base.toNat + r.reserve.toNat := by
      cases request.region <;> simp only [Region.last] <;> omega
    split
    · exact hp
    · rename_i start next hcarve
      obtain ⟨rfl, hnext, hle⟩ := carve_some hcarve (by omega)
      refine ⟨?_, ?_, ?_, ?_⟩
      · intro region
        dsimp only
        split
        · rename_i hregion
          rw [hregion, hnext]
          refine ⟨by omega, by omega, ?_⟩
          rw [Nat.add_mod, hcursor.2.2, haligned, Nat.zero_add, Nat.zero_mod]
        · exact hp.cursor region
      · intro q hq
        rcases List.mem_cons.1 hq with rfl | hq
        · exact ⟨hcursor.1, by dsimp only; omega, hcursor.2.2, hsized⟩
        · exact hp.placed q hq
      · intro q hq
        rcases List.mem_cons.1 hq with rfl | hq
        · simp only [if_pos]
          omega
        · have hbelow := hp.below q hq
          dsimp only
          split
          · rename_i hregion
            rw [hregion] at hbelow
            omega
          · exact hbelow
      · refine List.Pairwise.cons ?_ hp.disjoint
        intro q hq hregion
        have hbelow := hp.below q hq
        dsimp only at hregion ⊢
        rw [hregion]
        exact hbelow
  · exact hp

theorem Pool.inv_carveAll (h : Laid raw size r) (requests : List Request) :
    (Pool.carveAll r requests).Inv r := by
  unfold Pool.carveAll
  induction requests using List.reverseRecOn with
  | nil => exact Pool.inv_ofRange h
  | append_singleton requests request ih =>
    rw [List.foldl_append]
    exact Pool.inv_carve h ih request

/-- The parts of the reservation. -/
inductive Area where
  | headers
  | pages (of : Region)
deriving DecidableEq

def Area.first (r : Range) : Area → Nat
  | .headers => r.base.toNat
  | .pages of => of.first r

def Area.last (r : Range) : Area → Nat
  | .headers => r.base.toNat + r.smallStart.toNat
  | .pages of => of.last r

def Area.span (r : Range) (area : Area) : Set Nat := Set.Ico (area.first r) (area.last r)

def Page.span (q : Page) : Set Nat := Set.Ico q.start.toNat (q.start.toNat + q.bytes.toNat)

theorem Laid.areas_inside (h : Laid raw size r) (area : Area) :
    area.span r ⊆ Set.Ico raw.toNat (raw.toNat + size.toNat) := by
  have hordered := h.ordered
  apply Set.Ico_subset_Ico
  · cases area with
    | headers => exact hordered.1
    | pages of => cases of <;> simp only [Area.first, Region.first] <;> omega
  · cases area with
    | headers =>
      simp only [Area.last]
      omega
    | pages of => cases of <;> simp only [Area.last, Region.last] <;> omega

/-- Of two parts one ends before the other begins. -/
theorem Laid.areas_ordered (h : Laid raw size r) (a b : Area) (hne : a ≠ b) :
    a.last r ≤ b.first r ∨ b.last r ≤ a.first r := by
  have hordered := h.ordered
  cases a with
  | headers =>
    cases b with
    | headers => exact absurd rfl hne
    | pages of => cases of <;> simp only [Area.first, Area.last, Region.first, Region.last] <;> omega
  | pages of =>
    cases b with
    | headers => cases of <;> simp only [Area.first, Area.last, Region.first, Region.last] <;> omega
    | pages of' =>
      cases of <;> cases of' <;> first
        | exact absurd rfl hne
        | simp only [Area.first, Area.last, Region.first, Region.last]
          omega

theorem Laid.areas_disjoint (h : Laid raw size r) (a b : Area) (hne : a ≠ b) :
    Disjoint (a.span r) (b.span r) := by
  rw [Set.disjoint_left]
  rintro x ⟨hx, hx'⟩ ⟨hy, hy'⟩
  have := h.areas_ordered a b hne
  omega

/-- The header of a carved page is its entry of the header array, that of a large block the front
of the block. -/
def Page.header (r : Range) (q : Page) : Usize :=
  match q.region with
  | .large => q.start
  | _ => r.headerOf q.start

/-- The addresses that blocks of a page can have; a large block has one. -/
def Page.IsBlock (q : Page) (address : Usize) : Prop :=
  match q.region with
  | .large => address = q.start + pageHeader
  | _ => address.toNat ∈ q.span

theorem Laid.toNat_headerOf (h : Laid raw size r) (page : Usize) (hbase : r.base.toNat ≤ page.toNat)
    (hend : page.toNat < r.base.toNat + r.reserve.toNat) :
    (r.headerOf page).toNat = r.base.toNat + (page.toNat - r.base.toNat) / 65536 * 128 := by
  have hlt := h.reserve_lt
  have hsub : (page - r.base).toNat = page.toNat - r.base.toNat := by
    rw [BitVec.toNat_sub]
    omega
  have hheader := toNat_header (page - r.base) (by omega)
  unfold Range.headerOf
  rw [BitVec.toNat_add, hheader, hsub]
  omega

variable {q q' : Page}

/-- The bounds of a page inside the reservation. -/
theorem Page.Placed.bounds (hq : q.Placed r) (h : Laid raw size r) :
    r.base.toNat ≤ q.start.toNat ∧ q.start.toNat % 65536 = 0 ∧ 65536 ≤ q.bytes.toNat ∧
      q.start.toNat + q.bytes.toNat ≤ r.base.toNat + r.reserve.toNat := by
  have hordered := h.ordered
  obtain ⟨hfirst, hlast, haligned, hsized⟩ := hq
  cases hregion : q.region <;>
    simp only [hregion, Region.first, Region.last, Region.alignment, Region.Sized] at * <;> omega

theorem Laid.toNat_poolOffset (h : Laid raw size r) (hbase : r.base.toNat ≤ address.toNat)
    (hend : address.toNat < r.base.toNat + r.reserve.toNat) :
    (r.poolOffset address).toNat = address.toNat - r.base.toNat := by
  have hlt := h.reserve_lt
  unfold Range.poolOffset
  rw [BitVec.toNat_sub]
  omega

theorem Page.Placed.small_headers (hq : q.Placed r) (h : Laid raw size r)
    (hregion : q.region = .small) (hblock : address.toNat ∈ q.span) :
    r.poolOffset address < r.half ∧
    Range.smallHeader r.base (r.poolOffset address) = r.headerOf q.start ∧
    r.pageHeaderAt address (r.poolOffset address) = r.headerOf q.start := by
  have hlt := h.reserve_lt
  have hordered := h.ordered
  have haligned := h.aligned
  have hbounds := hq.bounds h
  obtain ⟨hlow, hhigh⟩ := hblock
  obtain ⟨hfirst, hlast, hstart, hsized⟩ := hq
  simp only [hregion, Region.first, Region.last, Region.alignment, Region.Sized] at *
  have hoffset := h.toNat_poolOffset (show r.base.toNat ≤ address.toNat by omega) (by omega)
  have hhalf : r.poolOffset address < r.half := by
    rw [BitVec.lt_def]
    omega
  refine ⟨hhalf, ?_, ?_⟩
  · apply BitVec.eq_of_toNat_eq
    unfold Range.smallHeader
    rw [BitVec.toNat_add, toNat_header _ (by omega), h.toNat_headerOf _ (by omega) (by omega),
      hoffset]
    omega
  · have hpage : r.pageStartAt address (r.poolOffset address) = q.start := by
      apply BitVec.eq_of_toNat_eq
      rw [Range.pageStartAt, if_pos hhalf, toNat_smallPageMask]
      omega
    rw [Range.pageHeaderAt, hpage]

theorem Page.Placed.medium_headers (hq : q.Placed r) (h : Laid raw size r)
    (hregion : q.region = .medium) (hblock : address.toNat ∈ q.span) :
    ¬ r.poolOffset address < r.half ∧ r.poolOffset address < r.largeStart ∧
    r.pageHeaderAt address (r.poolOffset address) = r.headerOf q.start := by
  have hlt := h.reserve_lt
  have hordered := h.ordered
  have hbounds := hq.bounds h
  obtain ⟨hlow, hhigh⟩ := hblock
  obtain ⟨hfirst, hlast, hstart, hsized⟩ := hq
  simp only [hregion, Region.first, Region.last, Region.alignment, Region.Sized] at *
  have hoffset := h.toNat_poolOffset (show r.base.toNat ≤ address.toNat by omega) (by omega)
  have hhalf : ¬ r.poolOffset address < r.half := by
    rw [BitVec.lt_def]
    omega
  refine ⟨hhalf, ?_, ?_⟩
  · rw [BitVec.lt_def]
    omega
  · have hpage : r.pageStartAt address (r.poolOffset address) = q.start := by
      apply BitVec.eq_of_toNat_eq
      rw [Range.pageStartAt, if_neg hhalf, toNat_mediumPageMask]
      omega
    rw [Range.pageHeaderAt, hpage]

/-- Freeing a block reaches the header of the page that it was carved from. -/
theorem Page.Placed.freedHeader (hq : q.Placed r) (h : Laid raw size r)
    (hblock : q.IsBlock address) : r.freedHeader address = some (q.header r) := by
  have hordered := h.ordered
  unfold Page.IsBlock at hblock
  unfold Range.freedHeader Page.header
  cases hregion : q.region with
  | small =>
    simp only [hregion] at hblock
    obtain ⟨hhalf, hheader, -⟩ := hq.small_headers h hregion hblock
    simp only [if_pos hhalf, hheader]
  | medium =>
    simp only [hregion] at hblock
    obtain ⟨hhalf, hlarge, hheader⟩ := hq.medium_headers h hregion hblock
    rw [BitVec.lt_def] at hlarge
    have hreserve : ¬ r.reserve ≤ r.poolOffset address := by
      rw [BitVec.le_def]
      omega
    have hnot : r.isLargeOffset (r.poolOffset address) = false := by
      simp only [Range.isLargeOffset, decide_eq_false_iff_not, BitVec.le_def]
      omega
    simp only [if_neg hhalf, if_neg hreserve, hnot, hheader]
    rfl
  | large =>
    simp only [hregion] at hblock
    have hlt := h.reserve_lt
    have hbounds := hq.bounds h
    have hheader : pageHeader.toNat = 128 := rfl
    have haddress : address.toNat = q.start.toNat + 128 := by
      rw [hblock, BitVec.toNat_add]
      omega
    obtain ⟨hfirst, hlast, hstart, hsized⟩ := hq
    simp only [hregion, Region.first, Region.last, Region.alignment, Region.Sized] at *
    have hoffset := h.toNat_poolOffset (show r.base.toNat ≤ address.toNat by omega) (by omega)
    have hhalf : ¬ r.poolOffset address < r.half := by
      rw [BitVec.lt_def]
      omega
    have hreserve : ¬ r.reserve ≤ r.poolOffset address := by
      rw [BitVec.le_def]
      omega
    have hlarge : r.isLargeOffset (r.poolOffset address) = true := by
      simp only [Range.isLargeOffset, decide_eq_true_eq, BitVec.le_def]
      omega
    have hback : address - pageHeader = q.start := by
      rw [hblock, BitVec.add_sub_cancel]
    simp only [if_neg hhalf, if_neg hreserve, hlarge, if_pos, hback]

theorem Page.Placed.span_subset (hq : q.Placed r) : q.span ⊆ (Area.pages q.region).span r :=
  Set.Ico_subset_Ico hq.first hq.last

/-- A page that is not a large block lies below the large region. -/
theorem Page.Placed.below_large (hq : q.Placed r) (h : Laid raw size r)
    (hregion : q.region ≠ .large) :
    q.start.toNat + q.bytes.toNat ≤ r.base.toNat + r.largeStart.toNat := by
  have hordered := h.ordered
  have hlast := hq.last
  cases hr : q.region with
  | small =>
    simp only [hr, Region.last] at hlast
    omega
  | medium => simpa only [hr, Region.last] using hlast
  | large => exact absurd hr hregion

/-- The entry of a page lies inside the header array. -/
theorem Page.Placed.header_inside (hq : q.Placed r) (h : Laid raw size r)
    (hregion : q.region ≠ .large) :
    Set.Ico (r.headerOf q.start).toNat ((r.headerOf q.start).toNat + headerSize.toNat) ⊆
      Area.headers.span r := by
  have hsize : headerSize.toNat = 128 := rfl
  have hordered := h.ordered
  have haligned := h.aligned
  have hsmall := h.smallStart
  have hbounds := hq.bounds h
  have hbelow := hq.below_large h hregion
  have hheader := h.toNat_headerOf q.start (by omega) (by omega)
  apply Set.Ico_subset_Ico
  · simp only [Area.first]
    omega
  · simp only [Area.last]
    omega

theorem Page.Placed.headerOf_ne (hq : q.Placed r) (hq' : q'.Placed r) (h : Laid raw size r)
    (hne : q.start.toNat ≠ q'.start.toNat) : r.headerOf q.start ≠ r.headerOf q'.start := by
  have haligned := h.aligned
  have hbounds := hq.bounds h
  have hbounds' := hq'.bounds h
  intro heq
  have hheader := h.toNat_headerOf q.start (by omega) (by omega)
  have hheader' := h.toNat_headerOf q'.start (by omega) (by omega)
  rw [heq] at hheader
  omega

/-- A large block lies above every entry of the header array. -/
theorem Page.Placed.headerOf_ne_large (hq : q.Placed r) (hq' : q'.Placed r) (h : Laid raw size r)
    (hregion : q.region ≠ .large) (hregion' : q'.region = .large) :
    r.headerOf q.start ≠ q'.start := by
  have hordered := h.ordered
  have hmem : (r.headerOf q.start).toNat ∈ Area.headers.span r := by
    apply hq.header_inside h hregion
    exact ⟨Nat.le_refl _, Nat.lt_add_of_pos_right (by decide)⟩
  have hfirst := hq'.first
  simp only [hregion', Region.first] at hfirst
  intro heq
  rw [heq] at hmem
  obtain ⟨-, hlt⟩ := hmem
  simp only [Area.last] at hlt
  omega

theorem Page.header_large (hregion : q.region = .large) : q.header r = q.start := by
  simp only [Page.header, hregion]

theorem Page.header_of_ne_large (hregion : q.region ≠ .large) :
    q.header r = r.headerOf q.start := by
  unfold Page.header
  cases hr : q.region with
  | small => rfl
  | medium => rfl
  | large => exact absurd hr hregion

theorem Page.Placed.header_ne (hq : q.Placed r) (hq' : q'.Placed r) (h : Laid raw size r)
    (hne : q.start.toNat ≠ q'.start.toNat) : q.header r ≠ q'.header r := by
  by_cases hregion : q.region = .large
  · by_cases hregion' : q'.region = .large
    · rw [Page.header_large hregion, Page.header_large hregion']
      intro heq
      exact hne (by rw [heq])
    · rw [Page.header_large hregion, Page.header_of_ne_large hregion']
      exact (hq'.headerOf_ne_large hq h hregion' hregion).symm
  · by_cases hregion' : q'.region = .large
    · rw [Page.header_of_ne_large hregion, Page.header_large hregion']
      exact hq.headerOf_ne_large hq' h hregion hregion'
    · rw [Page.header_of_ne_large hregion, Page.header_of_ne_large hregion']
      exact hq.headerOf_ne hq' h hne

theorem Page.Placed.pageHeaderAt (hq : q.Placed r) (h : Laid raw size r)
    (hregion : q.region ≠ .large) (hblock : q.IsBlock address) :
    r.pageHeaderAt address (r.poolOffset address) = q.header r := by
  unfold Page.IsBlock at hblock
  rw [Page.header_of_ne_large hregion]
  cases hr : q.region with
  | small =>
    simp only [hr] at hblock
    exact (hq.small_headers h hr hblock).2.2
  | medium =>
    simp only [hr] at hblock
    exact (hq.medium_headers h hr hblock).2.2
  | large => exact absurd hr hregion

/-- The stack index of an entry fits its field and leads back to the entry. -/
theorem Page.Placed.stackIndex (hq : q.Placed r) (h : Laid raw size r) :
    0 < (r.stackIndex q.start).toNat ∧ (r.stackIndex q.start).toNat ≤ stackIndexMask.toNat ∧
      r.stackEntry (r.stackIndex q.start) = q.start := by
  have hlt := h.reserve_lt
  have haligned := h.aligned
  have hbounds := hq.bounds h
  have hone : (1 : Usize).toNat = 1 := rfl
  have hmask : stackIndexMask.toNat = 16777215 := rfl
  have hsub : (q.start - r.base).toNat = q.start.toNat - r.base.toNat := by
    rw [BitVec.toNat_sub]
    omega
  have hindex : (r.stackIndex q.start).toNat = (q.start.toNat - r.base.toNat) / 65536 + 1 := by
    unfold Range.stackIndex
    rw [BitVec.toNat_add, BitVec.toNat_ushiftRight, hsub, Nat.shiftRight_eq_div_pow, hone]
    simp only [stackUnitShift]
    omega
  refine ⟨by omega, by omega, ?_⟩
  apply BitVec.eq_of_toNat_eq
  unfold Range.stackEntry
  rw [BitVec.toNat_add, BitVec.toNat_shiftLeft, BitVec.toNat_sub, hindex, Nat.shiftLeft_eq, hone]
  simp only [stackUnitShift]
  omega

theorem Page.Placed.disjoint_and_header_ne (hq : q.Placed r) (hq' : q'.Placed r)
    (h : Laid raw size r)
    (hbelow : q.region = q'.region → q'.start.toNat + q'.bytes.toNat ≤ q.start.toNat) :
    Disjoint q.span q'.span ∧ q.header r ≠ q'.header r := by
  have hbounds := hq.bounds h
  have hbounds' := hq'.bounds h
  have hdisjoint : Disjoint q.span q'.span := by
    by_cases hregion : q.region = q'.region
    · have hle := hbelow hregion
      rw [Set.disjoint_left]
      rintro x ⟨hx, -⟩ ⟨-, hx'⟩
      omega
    · refine (h.areas_disjoint (.pages q.region) (.pages q'.region) ?_).mono hq.span_subset
        hq'.span_subset
      intro heq
      exact hregion (Area.pages.inj heq)
  refine ⟨hdisjoint, hq.header_ne hq' h ?_⟩
  intro heq
  rw [Set.disjoint_left] at hdisjoint
  apply @hdisjoint q.start.toNat
  · exact ⟨Nat.le_refl _, by omega⟩
  · exact ⟨by omega, by omega⟩

theorem mapped_of_reserveRange (hmmap : ∀ size raw, mmap size = some raw →
    raw.toNat + size.toNat ≤ 9223372036854775808)
    (h : reserveRange mmap = some (raw, size)) : Mapped raw size := by
  obtain ⟨hgot, hlow, hhigh⟩ := reserveFrom_some h
  exact ⟨hlow, hhigh, hmmap size raw hgot⟩

/-- Wherever the reservation lies, its parts are disjoint and inside the mapping; every page is
found again from its blocks, has a header of its own, and a stack index of its own. -/
theorem reservation_layout (mmap : Usize → Option Usize)
    (hmmap : ∀ size raw, mmap size = some raw → raw.toNat + size.toNat ≤ 9223372036854775808)
    (hreserved : reserveRange mmap = some (raw, size)) (requests : List Request) :
    let r := Range.ofMapping raw size
    let carved := (Pool.carveAll r requests).carved
    (∀ area : Area, area.span r ⊆ Set.Ico raw.toNat (raw.toNat + size.toNat)) ∧
    (∀ a b : Area, a ≠ b → Disjoint (a.span r) (b.span r)) ∧
    (∀ q ∈ carved, q.span ⊆ (Area.pages q.region).span r ∧
      (∀ address, q.IsBlock address → r.freedHeader address = some (q.header r)) ∧
      (q.region ≠ .large → ∀ address, q.IsBlock address →
        r.pageHeaderAt address (r.poolOffset address) = q.header r) ∧
      Set.Ico (q.header r).toNat ((q.header r).toNat + headerSize.toNat) ⊆
        (if q.region = .large then q.span else Area.headers.span r) ∧
      0 < (r.stackIndex q.start).toNat ∧
      (r.stackIndex q.start).toNat ≤ stackIndexMask.toNat ∧
      r.stackEntry (r.stackIndex q.start) = q.start) ∧
    carved.Pairwise fun q q' => Disjoint q.span q'.span ∧ q.header r ≠ q'.header r := by
  intro r carved
  have h : Laid raw size r := laid_ofMapping (mapped_of_reserveRange hmmap hreserved)
  have hinv : (Pool.carveAll r requests).Inv r := Pool.inv_carveAll h requests
  refine ⟨h.areas_inside, h.areas_disjoint, ?_, ?_⟩
  · intro q hmem
    have hq := hinv.placed q hmem
    refine ⟨hq.span_subset, fun address => hq.freedHeader h, fun hregion address =>
      hq.pageHeaderAt h hregion, ?_, hq.stackIndex h⟩
    split
    · rename_i hregion
      have hbounds := hq.bounds h
      have hsize : headerSize.toNat = 128 := rfl
      rw [Page.header_large hregion]
      exact Set.Ico_subset_Ico (Nat.le_refl _) (by omega)
    · rename_i hregion
      rw [Page.header_of_ne_large hregion]
      exact hq.header_inside h hregion
  · refine hinv.disjoint.imp_of_mem ?_
    intro q q' hmem hmem' hbelow
    exact (hinv.placed q hmem).disjoint_and_header_ne (hinv.placed q' hmem') h hbelow

/-- A system that grants 32 GiB, not on a 64 KiB boundary. -/
def halfGranted (size : Usize) : Option Usize :=
  if size = 32 <<< 30 then some 0x7f1234567000 else none

theorem reservation_layout_halfGranted :
    (Pool.carveAll (Range.ofMapping 0x7f1234567000 (32 <<< 30))
      [.small, .medium, .large 40000, .small]).carved.length = 4 ∧
    (Pool.carveAll (Range.ofMapping 0x7f1234567000 (32 <<< 30))
      [.small, .medium, .large 40000, .small]).carved.Pairwise fun q q' =>
        Disjoint q.span q'.span ∧ q.header (Range.ofMapping 0x7f1234567000 (32 <<< 30)) ≠
          q'.header (Range.ofMapping 0x7f1234567000 (32 <<< 30)) := by
  have hmmap : ∀ size raw, halfGranted size = some raw →
      raw.toNat + size.toNat ≤ 9223372036854775808 := by
    intro size raw hgranted
    unfold halfGranted at hgranted
    split at hgranted
    · rename_i hsize
      cases hgranted
      rw [hsize]
      decide
    · cases hgranted
  have hreserved : reserveRange halfGranted =
      some ((0x7f1234567000 : Usize), (32 <<< 30 : Usize)) := by
    have hfirst : halfGranted (64 <<< 30) = none := by decide
    have hsecond : halfGranted (64 <<< 30 / 2) = some 0x7f1234567000 := by decide
    unfold reserveRange
    rw [reserveFrom, dif_pos (by decide), hfirst]
    dsimp only
    rw [reserveFrom, dif_pos (by decide), hsecond]
    rfl
  exact ⟨by decide, (reservation_layout halfGranted hmmap hreserved _).2.2.2⟩

end Rphp.Heap
