import Tempograph.Competitive
import Tempograph.Preprocess

/-!
Larger pages and more frames.

`preprocess_trace.py` cuts the addresses of a trace into pages of a size that is chosen when
it is called, and `main.c` chooses the frames. LRU gains from both: pages of a multiple of
the size, in at least as many frames, keep every hit, and the best that any cache can do with
the trace gets no worse.
-/

namespace Tempograph.PageSizes

open Common LoadTrace Preprocess Sim Renaming Paging DemandPaging Competitive

variable {overflow : List UInt8 → Page} {py : Python} {s k : ℤ} {text : List Char}
  {line : List Char}

/-- Every address is on a page that an `int` can number, and such numbers can be written. -/
structure Addressable (py : Python) (s : ℤ) (text : List Char) : Prop where
  writes : py.allows 10
  address : ∀ line ∈ lines text, ∀ a ∈ address py line, Fits (a.fdiv s)

/-- The number of a page in pages that are `k` times as large. -/
def merge (k : ℤ) (page : Page) : Page := Int32.ofInt (page.toInt.fdiv k)

lemma allows_of_le {m m' : ℕ} (h : py.allows m) (hle : m' ≤ m) : py.allows m' :=
  h.imp_right hle.trans

/-- The number of a page fits if the one of a part of it does. -/
lemma fits_merge {z : ℤ} (hk : 1 ≤ k) (hz : Fits z) : Fits (z.fdiv k) := by
  rw [fits_fdiv hk]
  obtain ⟨h1, h2⟩ := hz
  constructor <;> nlinarith

lemma length_toDigits_le {z : ℤ} (hz : Fits z) : (Nat.toDigits 10 z.natAbs).length ≤ 10 := by
  rw [Nat.length_toDigits_le_iff (by decide) (by decide)]
  obtain ⟨h1, h2⟩ := hz
  omega

/-- An address that has a page number is written as it. -/
lemma pageId_of_fits (hs : 1 ≤ s) (hpy : py.allows 10)
    (hfit : ∀ a ∈ address py line, Fits (a.fdiv s)) :
    pageId py s line = (address py line).map (·.fdiv s) := by
  unfold pageId processLine
  cases ha : address py line with
  | none => rfl
  | some a =>
    have hallows := allows_of_le hpy (length_toDigits_le (hfit a ha))
    simp only [if_neg (show s ≠ 0 by omega), if_pos hallows, Option.map_some]

lemma Addressable.mul (h : Addressable py s text) (hs : 1 ≤ s) (hk : 1 ≤ k) :
    Addressable py (s * k) text := by
  refine ⟨h.writes, fun line hl a ha => ?_⟩
  rw [← Int.fdiv_fdiv_eq_fdiv_mul a (by omega) (by omega)]
  exact fits_merge hk (h.address line hl a ha)

/-- **A larger page size writes the same lines**, each with the page that the smaller one lies
in. -/
lemma pageIds_mul (hs : 1 ≤ s) (hk : 1 ≤ k) (h : Addressable py s text) :
    pageIds py (s * k) text = (pageIds py s text).map (·.fdiv k) := by
  have hmul := h.mul hs hk
  have hpos : 1 ≤ s * k := by nlinarith
  unfold pageIds
  rw [List.map_filterMap]
  refine List.filterMap_congr fun line hl => ?_
  rw [pageId_of_fits hs h.writes (h.address line hl),
    pageId_of_fits hpos h.writes (hmul.address line hl), Option.map_map]
  congr 1
  funext a
  exact (Int.fdiv_fdiv_eq_fdiv_mul a (by omega) (by omega)).symm

lemma fits_pageIds (hs : 1 ≤ s) (h : Addressable py s text) :
    ∀ z ∈ pageIds py s text, Fits z := by
  intro z hz
  obtain ⟨line, hl, hz⟩ := List.mem_filterMap.mp hz
  obtain ⟨a, ha, rfl⟩ := pageId_eq_some hs hz
  exact h.address line hl a ha

/-- The trace that is loaded from the preprocessed text. -/
lemma load_addressable (hs : 1 ≤ s) (h : Addressable py s text)
    (hlen : (pageIds py s text).length ≤ maxTrace) :
    ∃ file, preprocessTrace py s text = some file ∧
      loadTrace overflow (some (encode file)) = (pageIds py s text).map Int32.ofInt :=
  ⟨_, preprocessTrace_eq hs text, load_ids (fits_pageIds hs h) hlen⟩

/-- Loaded, the larger pages are the smaller ones merged. -/
lemma load_merged (hs : 1 ≤ s) (hk : 1 ≤ k) (h : Addressable py s text) :
    (pageIds py (s * k) text).map Int32.ofInt =
      ((pageIds py s text).map Int32.ofInt).map (merge k) := by
  rw [pageIds_mul hs hk h, List.map_map, List.map_map]
  refine List.map_congr_left fun z hz => ?_
  obtain ⟨h1, h2⟩ := fits_pageIds hs h z hz
  rw [Function.comp_apply, Function.comp_apply, merge, Int32.toInt_ofInt_of_le h1 h2]

/-- **Larger pages and more frames keep every hit of LRU.** From the same addresses, with pages
`k` times as large and at least as many frames, each access that was a hit is one, so there
are no more faults; neither has the best cache, however it is run. -/
theorem larger_pages (overflow : List UInt8 → Page) (py : Python) (M M' : Malloc)
    (σ σ' : Statics) (s k : ℤ) (hs : 1 ≤ s) (hk : 1 ≤ k) (text : List Char)
    (h : Addressable py s text) (hlen : (pageIds py s text).length ≤ maxTrace) (n m : ℕ)
    (hn : 1 ≤ n) (hm : n ≤ m) (W W' : ℤ) :
    ∃ (file file' : List Char) (tr tr' : List Page) (os os' : List Result),
      preprocessTrace py s text = some file ∧ preprocessTrace py (s * k) text = some file' ∧
      loadTrace overflow (some (encode file)) = tr ∧
      loadTrace overflow (some (encode file')) = tr' ∧
      answers M σ .lru n W tr = some os ∧ answers M' σ' .lru m W' tr' = some os' ∧
      os'.length = os.length ∧ (∀ i : ℕ, os[i]? = some .hit → os'[i]? = some .hit) ∧
      os'.count .fault ≤ os.count .fault ∧
      ∀ bs D, Serves n ∅ tr bs D → ∃ bs' D', Serves m ∅ tr' bs' D' ∧
        bs'.count false ≤ bs.count false := by
  have hpos : 1 ≤ s * k := by nlinarith
  have hmul := h.mul hs hk
  have hlen' : (pageIds py (s * k) text).length ≤ maxTrace := by
    rwa [pageIds_mul hs hk h, List.length_map]
  obtain ⟨file, hfile, hload⟩ := @load_addressable overflow _ _ _ hs h hlen
  obtain ⟨file', hfile', hload'⟩ := @load_addressable overflow _ _ _ hpos hmul hlen'
  rw [load_merged hs hk h] at hload'
  obtain ⟨os, ha, hos⟩ := lru_answers M σ hn W ((pageIds py s text).map Int32.ofInt)
  obtain ⟨os', ha', hos'⟩ := lru_answers M' σ' (hn.trans hm) W'
    (((pageIds py s text).map Int32.ofInt).map (merge k))
  have hcov : Covers (os.map isHit) (os'.map isHit) := by
    rw [hos, hos']
    exact lruHits_map (merge k) hm _
  have hlength : os'.length = os.length := by
    have := hcov.length_eq
    rwa [List.length_map, List.length_map, eq_comm] at this
  refine ⟨file, file', _, _, os, os', hfile, hfile', hload, hload', ha, ha', hlength,
    fun i hi => ?_, ?_, fun bs D hserves => ?_⟩
  · obtain ⟨hlt, he⟩ := List.getElem?_eq_some_iff.mp hi
    have hget := hcov.get (by simpa using hlt) (by simpa [hlength] using hlt)
    simp only [List.get_eq_getElem, List.getElem_map, he] at hget
    have hhit : os'[i] = .hit := by simpa [isHit] using hget rfl
    exact List.getElem?_eq_some_iff.mpr ⟨by omega, hhit⟩
  · have := hcov.count_le
    rwa [count_isHit, count_isHit] at this
  · have hempty : (∅ : Finset Page).image (merge k) ⊆ ∅ := by simp
    obtain ⟨bs', D', hserves', -, hcov'⟩ := hserves.map (merge k) hm hempty
    exact ⟨bs', D', hserves', hcov'.count_le⟩

/-- Accesses to two pages of 4096 bytes that are one of 8192. -/
def neighbours : List Char := "0,0x1000,8\n1,10,8\n".toList

lemma addressable_neighbours : Addressable cpython 4096 neighbours := by
  refine ⟨by decide, fun line hl a ha => ?_⟩
  have hall : ∀ line ∈ lines neighbours,
      ((address cpython line).map (·.fdiv 4096)).all (decide <| Fits ·) = true := by decide
  have := hall line hl
  rwa [Option.mem_def.mp ha, Option.map_some, Option.all_some, decide_eq_true_iff] at this

lemma pageIds_neighbours : pageIds cpython 4096 neighbours = [1, 0] := by decide

/-- The theorem there, with one frame. -/
theorem larger_pages_two : (1 : ℤ) ≤ 4096 ∧ (1 : ℤ) ≤ 2 ∧ Addressable cpython 4096 neighbours ∧
    (pageIds cpython 4096 neighbours).length ≤ maxTrace ∧ 1 ≤ 1 ∧
    ∃ (file' : List Char) (os os' : List Result),
      preprocessTrace cpython (4096 * 2) neighbours = some file' ∧
      answers Malloc.above start .lru 1 10 (loadTrace wrap (some (encode file'))) = some os' ∧
      os'.count .fault ≤ os.count .fault := by
  have hlen : (pageIds cpython 4096 neighbours).length ≤ maxTrace := by
    rw [pageIds_neighbours]
    decide
  obtain ⟨-, file', -, tr', os, os', -, hfile', -, rfl, -, ha', -, -, hcount, -⟩ :=
    larger_pages wrap cpython Malloc.above Malloc.above start start 4096 2 (by decide) (by decide)
      neighbours addressable_neighbours hlen 1 1 le_rfl le_rfl 10 10
  exact ⟨by decide, by decide, addressable_neighbours, hlen, le_rfl, file', os, os', hfile', ha',
    hcount⟩

end Tempograph.PageSizes
