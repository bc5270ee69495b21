/-
PCMPlayer's constructor: how the files are cached.

The size of a file is rounded up to whole samples, but the vector is given half
as many bytes as the size says.  Every pass of the loop that fills it moves the
destination on by all bytes read so far.

* `PcmCache.loadFiles` — the constructor's loop over the files;
* `PcmCache.CachesWhole` — every file is cached whole, and every read stays
  inside its buffer;
* `PcmCache.reads_inside_iff` — a file is read inside its buffer in at most two
  reads;
* `PcmCache.cached_of_two_reads` — and what is cached is its first half;
* `PcmCache.cachesWhole_iff` — **only empty files are cached whole**.
-/
import IflyosSDK.Memory
import IflyosSDK.PcmPlayer

namespace MicAgent

namespace PcmCache

/-- `int size = ifs.tellg()` at the end of the file. -/
def tellg (length : ℕ) : Int := (length : Int).bmod (2 ^ 32)

/-- The size of the vector, with `size = (size + 1) / 2 * 2`; no result when the
sum overflows, and when no vector can have that size. -/
def cacheSize (length : ℕ) : Option ℕ :=
  if tellg length + 1 < 2 ^ 31 then
    let size := (tellg length + 1).tdiv 2 * 2
    if 0 ≤ size then some (size.tdiv 2).toNat else none
  else none

/-! ### The size of the vector -/

theorem tellg_le (length : ℕ) : tellg length ≤ length := by
  unfold tellg
  have h := Int.bmod_def (length : Int) (2 ^ 32)
  split at h <;> omega

theorem tellg_of_lt {length : ℕ} (h : length < 2 ^ 31) : tellg length = length := by
  unfold tellg
  exact Int.bmod_eq_of_le (by omega) (by omega)

theorem cacheSize_eq_some_iff {length k : ℕ} :
    cacheSize length = some k ↔
      tellg length + 1 < 2 ^ 31 ∧ 0 ≤ (tellg length + 1).tdiv 2 ∧
        ((tellg length + 1).tdiv 2).toNat = k := by
  have hhalf : ∀ x : Int, (x * 2).tdiv 2 = x := fun x => Int.mul_tdiv_cancel x (by decide)
  rw [cacheSize]
  simp only [hhalf]
  split
  · rename_i hsize
    split
    · rename_i hpos
      rw [Option.some.injEq]
      exact ⟨fun h => ⟨hsize, by omega, h⟩, fun h => h.2.2⟩
    · rename_i hneg
      exact iff_of_false (Option.some_ne_none k).symm fun h => hneg (by omega)
  · rename_i hsize
    exact iff_of_false (Option.some_ne_none k).symm fun h => hsize h.1

theorem cacheSize_le {length k : ℕ} (h : cacheSize length = some k) : k ≤ (length + 1) / 2 := by
  obtain ⟨-, hpos, rfl⟩ := cacheSize_eq_some_iff.mp h
  have hle := tellg_le length
  have htwo : (0 : Int) < 2 := by decide
  rcases lt_or_ge (tellg length + 1) 0 with hneg | hnonneg
  · have hzero := Int.tdiv_le_tdiv htwo (Int.le_of_lt hneg)
    rw [Int.zero_tdiv] at hzero
    omega
  · rw [Int.tdiv_eq_ediv_of_nonneg hnonneg]
    omega

theorem cacheSize_lt {length k : ℕ} (h : cacheSize length = some k) : k < 2 ^ 31 := by
  obtain ⟨hlt, hpos, rfl⟩ := cacheSize_eq_some_iff.mp h
  have htwo : (0 : Int) < 2 := by decide
  have hle := Int.tdiv_le_tdiv htwo (Int.le_of_lt hlt)
  have hmax : ((2 : Int) ^ 31).tdiv 2 = 2 ^ 30 := by decide
  omega

theorem cacheSize_of_lt {length : ℕ} (h : length < 2 ^ 31 - 1) :
    cacheSize length = some ((length + 1) / 2) := by
  have hsize := tellg_of_lt (show length < 2 ^ 31 by omega)
  rw [cacheSize_eq_some_iff, hsize, Int.tdiv_eq_ediv_of_nonneg (by omega)]
  omega

/-! ### The constructor -/

/-- A call of `ifs.read`: the size of the buffer, the offset in it, and the
number of bytes asked for. -/
structure Read where
  size : ℕ
  dest : ℕ
  count : ℕ
  deriving DecidableEq, Repr

/-- The call asks for bytes of the buffer only. -/
def Read.Inside (r : Read) : Prop := r.dest + r.count ≤ r.size

instance (r : Read) : Decidable r.Inside := inferInstanceAs (Decidable (_ ≤ _))

/-- The byte counts that the stream can report from the offset on: positive, no
more than what is asked for and what is left, until the buffer counts as full or
the file ends. -/
def Reports (length size : ℕ) (offset : ℕ) : List ℕ → Prop
  | [] => size ≤ offset ∨ length ≤ offset
  | rd :: rds =>
    0 < rd ∧ rd ≤ size - offset ∧ rd ≤ length - offset ∧ Reports length size (offset + rd) rds

/-- The loop that fills the vector; no result when a read stores outside it. -/
def readLoop (file : Bytes) {n : ℕ} (cache : Buffer n) (dataPtr offset : ℕ) :
    List ℕ → Option (Buffer n × List Read)
  | [] =>
    -- the last call reports that the file has ended
    some (cache, if offset < n then [⟨n, dataPtr + offset, n - offset⟩] else [])
  | rd :: rds =>
    (cache.store (dataPtr + offset) ((file.drop offset).take rd)).bind fun cache =>
      (readLoop file cache (dataPtr + offset) (offset + rd) rds).map fun r =>
        (r.1, ⟨n, dataPtr + offset, n - offset⟩ :: r.2)

/-- A file to load and the byte counts that the stream reports. -/
structure FileLoad where
  file : String
  counts : List ℕ
  deriving DecidableEq, Repr

/-- `m_mapBuffer` and the reads made so far. -/
structure Loaded where
  mapBuffer : List (String × Bytes)
  reads : List Read
  deriving DecidableEq

/-- One file: the vector is made, filled and stored under the file's name. -/
def loadFile (content : String → Bytes) (s : Loaded) (l : FileLoad) : Option Loaded :=
  (cacheSize (content l.file).length).bind fun n =>
    (readLoop (content l.file) (Buffer.zeros n) 0 0 l.counts).map fun r =>
      ⟨(l.file, r.1.bytes) :: s.mapBuffer, s.reads ++ r.2⟩

/-- The constructor's loop over the files, all of which can be read. -/
def loadFiles (content : String → Bytes) (loads : List FileLoad) : Option Loaded :=
  loads.foldlM (loadFile content) ⟨[], []⟩

/-- The counts are what the streams can report. -/
def Reported (content : String → Bytes) (loads : List FileLoad) : Prop :=
  ∀ l ∈ loads, ∀ n ∈ cacheSize (content l.file).length,
    Reports (content l.file).length n 0 l.counts

/-- Every file is cached whole, with a zero behind it when its length is odd,
and every read stays inside its buffer. -/
def CachesWhole (content : String → Bytes) (loads : List FileLoad) : Prop :=
  ∃ s, loadFiles content loads = some s ∧ (∀ r ∈ s.reads, r.Inside) ∧
    ∀ l ∈ loads, ∃ cache, s.mapBuffer.lookup l.file = some cache ∧
      cache.length = ((content l.file).length + 1) / 2 * 2 ∧ content l.file <+: cache

/-! ### One file -/

section File

variable {file : Bytes} {n : ℕ} {counts : List ℕ}

/-- No vector is longer than its file. -/
theorem cacheSize_le_length {length : ℕ} (h : cacheSize length = some n) : n ≤ length := by
  have hle := cacheSize_le h
  omega

/-- A read whose destination is its offset goes on with the copy. -/
theorem exists_read (cache : Buffer n) {d rd : ℕ} (hn : d + rd ≤ n) (hfile : d + rd ≤ file.length)
    (hsame : cache.bytes.take d = file.take d) :
    ∃ cache', cache.store d ((file.drop d).take rd) = some cache' ∧
      cache'.bytes.take (d + rd) = file.take (d + rd) := by
  have hlen : ((file.drop d).take rd).length = rd := by
    rw [List.length_take, List.length_drop]
    omega
  obtain ⟨cache', hstore⟩ :=
    cache.exists_store (show d + ((file.drop d).take rd).length ≤ n by omega)
  have htake := Buffer.take_of_store hstore (by omega)
  rw [hlen, hsame] at htake
  exact ⟨cache', hstore, by rw [htake, List.take_add]⟩

theorem bytes_eq_take {cache : Buffer n} {k : ℕ} (h : cache.bytes.take k = file.take k)
    (hk : n = k) : cache.bytes = file.take n := by
  subst hk
  rw [← h, List.take_of_length_le (Nat.le_of_eq cache.size)]

theorem readLoop_nil (cache : Buffer n) {dataPtr offset : ℕ} (h : n ≤ offset) :
    readLoop file cache dataPtr offset [] = some (cache, []) := by
  rw [readLoop, if_neg (by omega)]

theorem readLoop_cons {cache cache' : Buffer n} {dataPtr offset rd : ℕ} {rds : List ℕ}
    (h : cache.store (dataPtr + offset) ((file.drop offset).take rd) = some cache') :
    readLoop file cache dataPtr offset (rd :: rds) =
      (readLoop file cache' (dataPtr + offset) (offset + rd) rds).map fun r =>
        (r.1, ⟨n, dataPtr + offset, n - offset⟩ :: r.2) := by
  rw [readLoop, h, Option.bind_some]

theorem exists_of_readLoop_cons {cache : Buffer n} {dataPtr offset rd : ℕ} {rds : List ℕ}
    {r : Buffer n × List Read} (h : readLoop file cache dataPtr offset (rd :: rds) = some r) :
    ∃ (cache' : Buffer n) (r' : Buffer n × List Read),
      readLoop file cache' (dataPtr + offset) (offset + rd) rds = some r' ∧
      r.2 = ⟨n, dataPtr + offset, n - offset⟩ :: r'.2 := by
  rw [readLoop] at h
  obtain ⟨cache', -, h⟩ := Option.bind_eq_some_iff.mp h
  obtain ⟨r', hr', rfl⟩ := Option.map_eq_some_iff.mp h
  exact ⟨cache', r', hr', rfl⟩

/-- In at most two reads the vector is filled from the front of the file. -/
theorem cached_of_two_reads (hn : cacheSize file.length = some n)
    (hreports : Reports file.length n 0 counts) (htwo : counts.length ≤ 2) :
    ∃ r, readLoop file (Buffer.zeros n) 0 0 counts = some r ∧ r.1.bytes = file.take n ∧
      ∀ x ∈ r.2, x.Inside := by
  have hle := cacheSize_le_length hn
  rcases counts with _ | ⟨a, _ | ⟨b, _ | ⟨c, counts⟩⟩⟩
  · have hfull : n = 0 := by
      rcases hreports with h | h <;> omega
    refine ⟨_, readLoop_nil _ (Nat.le_of_eq hfull), bytes_eq_take rfl hfull, by simp⟩
  · obtain ⟨hpos, hask, hleft, hend⟩ := hreports
    have hfull : n = 0 + a := by
      rcases hend with h | h <;> omega
    obtain ⟨cache, hstore, hsame⟩ := exists_read (Buffer.zeros n) (show 0 + a ≤ n by omega)
      (show 0 + a ≤ file.length by omega) rfl
    refine ⟨_, by rw [readLoop_cons hstore, readLoop_nil _ (Nat.le_of_eq hfull)]; rfl,
      bytes_eq_take hsame hfull, ?_⟩
    exact List.forall_mem_singleton.mpr (show 0 + 0 + (n - 0) ≤ n by omega)
  · obtain ⟨hpos, hask, hleft, hpos', hask', hleft', hend⟩ := hreports
    have hfull : n = 0 + a + b := by
      rcases hend with h | h <;> omega
    obtain ⟨cache, hstore, hsame⟩ := exists_read (Buffer.zeros n) (show 0 + a ≤ n by omega)
      (show 0 + a ≤ file.length by omega) rfl
    -- so far all bytes have been read by one call, which the destination is moved by
    obtain ⟨cache', hstore', hsame'⟩ := exists_read cache (show 0 + a + b ≤ n by omega)
      (show 0 + a + b ≤ file.length by omega) hsame
    have hmoved : cache.store (0 + 0 + (0 + a)) ((file.drop (0 + a)).take b) = some cache' := by
      rw [Nat.zero_add (0 + a)]
      exact hstore'
    refine ⟨_, by rw [readLoop_cons hstore, readLoop_cons hmoved,
      readLoop_nil _ (Nat.le_of_eq hfull)]; rfl, bytes_eq_take hsame' hfull, ?_⟩
    exact List.forall_mem_cons.mpr ⟨show 0 + 0 + (n - 0) ≤ n by omega,
      List.forall_mem_singleton.mpr (show 0 + 0 + (0 + a) + (n - (0 + a)) ≤ n by omega)⟩
  · simp at htwo

/-- **A file is read inside its vector exactly when it takes at most two
reads**: the third one is directed past the end by the length of the first. -/
theorem reads_inside_iff (hn : cacheSize file.length = some n)
    (hreports : Reports file.length n 0 counts) :
    (∃ r, readLoop file (Buffer.zeros n) 0 0 counts = some r ∧ ∀ x ∈ r.2, x.Inside) ↔
      counts.length ≤ 2 := by
  constructor
  · rintro ⟨r, hr, hinside⟩
    by_contra hlen
    rcases counts with _ | ⟨a, _ | ⟨b, _ | ⟨c, counts⟩⟩⟩
    · simp at hlen
    · simp at hlen
    · simp at hlen
    · obtain ⟨hpos, hask, hleft, hpos', hask', hleft', hpos'', hask'', -⟩ := hreports
      obtain ⟨_, r₁, hr₁, hreads⟩ := exists_of_readLoop_cons hr
      obtain ⟨_, r₂, hr₂, hreads₁⟩ := exists_of_readLoop_cons hr₁
      obtain ⟨_, r₃, -, hreads₂⟩ := exists_of_readLoop_cons hr₂
      have hthird := hinside ⟨n, 0 + 0 + (0 + a) + (0 + a + b), n - (0 + a + b)⟩
        (by simp [hreads, hreads₁, hreads₂])
      have hpast : ¬ 0 + 0 + (0 + a) + (0 + a + b) + (n - (0 + a + b)) ≤ n := by omega
      exact hpast hthird
  · intro htwo
    obtain ⟨r, hr, -, hinside⟩ := cached_of_two_reads hn hreports htwo
    exact ⟨r, hr, hinside⟩

end File

/-! ### All files -/

section Files

variable {content : String → Bytes} {loads : List FileLoad} {s u : Loaded} {l : FileLoad}

/-- What is cached has the size that its vector was given. -/
def Sized (content : String → Bytes) (s : Loaded) : Prop :=
  ∀ p ∈ s.mapBuffer, cacheSize (content p.1).length = some p.2.length

theorem loadFile_cases (h : loadFile content s l = some u) :
    ∃ n, ∃ r : Buffer n × List Read, cacheSize (content l.file).length = some n ∧
      readLoop (content l.file) (Buffer.zeros n) 0 0 l.counts = some r ∧
      u = ⟨(l.file, r.1.bytes) :: s.mapBuffer, s.reads ++ r.2⟩ := by
  obtain ⟨n, hn, h⟩ := Option.bind_eq_some_iff.mp h
  obtain ⟨r, hr, rfl⟩ := Option.map_eq_some_iff.mp h
  exact ⟨n, r, hn, hr, rfl⟩

theorem sized_loadFile (hs : Sized content s) (h : loadFile content s l = some u) :
    Sized content u := by
  obtain ⟨n, r, hn, -, rfl⟩ := loadFile_cases h
  refine List.forall_mem_cons.mpr ⟨?_, hs⟩
  rw [hn, r.1.size]

theorem sized_foldlM (hs : Sized content s) (h : loads.foldlM (loadFile content) s = some u) :
    Sized content u := by
  induction loads generalizing s with
  | nil =>
    cases h
    exact hs
  | cons l loads ih =>
    rw [List.foldlM_cons] at h
    obtain ⟨m, hm, h⟩ := Option.bind_eq_some_iff.mp h
    exact ih (sized_loadFile hs hm) h

theorem sized_loadFiles (h : loadFiles content loads = some s) : Sized content s :=
  sized_foldlM (s := ⟨[], []⟩) (fun _ hp => absurd hp List.not_mem_nil) h

/-- Every cached file is one that the player can be given. -/
theorem exists_caches (h : loadFiles content loads = some s) :
    ∃ caches : List (String × Cache), caches.map (fun p => (p.1, p.2.bytes)) = s.mapBuffer := by
  have hlt : ∀ p ∈ s.mapBuffer, p.2.length < 2 ^ 31 :=
    fun p hp => cacheSize_lt (sized_loadFiles h p hp)
  refine ⟨s.mapBuffer.pmap (fun p hp => (p.1, ⟨p.2, hp⟩)) hlt, ?_⟩
  rw [List.map_pmap]
  exact List.pmap_eq_self.mpr fun _ _ => rfl

theorem mem_of_lookup {f : String} {cache : Bytes} (h : s.mapBuffer.lookup f = some cache) :
    (f, cache) ∈ s.mapBuffer := by
  obtain ⟨l₁, l₂, heq, -⟩ := List.lookup_eq_some_iff.mp h
  rw [heq]
  exact List.mem_append_right _ List.mem_cons_self

/-- An empty file is loaded without a read. -/
theorem loadFile_of_nil (hempty : content l.file = [])
    (hreports : ∀ n ∈ cacheSize (content l.file).length,
      Reports (content l.file).length n 0 l.counts) :
    loadFile content s l = some ⟨(l.file, []) :: s.mapBuffer, s.reads⟩ := by
  have hsize : cacheSize (content l.file).length = some 0 := by
    rw [hempty]
    exact cacheSize_of_lt (by decide)
  have hcounts : l.counts = [] := by
    have h := hreports 0 hsize
    cases hc : l.counts with
    | nil => rfl
    | cons rd rds =>
      rw [hc] at h
      exact absurd h.2.1 (Nat.not_le.mpr h.1)
  rw [loadFile, hsize, Option.bind_some, hcounts, readLoop_nil _ (Nat.le_refl 0), Option.map_some,
    List.append_nil]
  rfl

theorem foldlM_of_nil (hempty : ∀ l ∈ loads, content l.file = [])
    (hreported : Reported content loads) :
    loads.foldlM (loadFile content) s =
      some ⟨(loads.reverse.map fun l => (l.file, [])) ++ s.mapBuffer, s.reads⟩ := by
  induction loads generalizing s with
  | nil => rfl
  | cons l loads ih =>
    have hl := loadFile_of_nil (s := s) (hempty l List.mem_cons_self)
      (hreported l List.mem_cons_self)
    rw [List.foldlM_cons, hl]
    refine (ih (fun l hl => hempty l (List.mem_cons_of_mem _ hl))
      fun l hl => hreported l (List.mem_cons_of_mem _ hl)).trans ?_
    simp

/-- **Only empty files are cached whole**: every other vector is at most half as
long as its file. -/
theorem cachesWhole_iff (hreported : Reported content loads) :
    CachesWhole content loads ↔ ∀ l ∈ loads, content l.file = [] := by
  constructor
  · rintro ⟨s, hs, -, hwhole⟩ l hl
    obtain ⟨cache, hlookup, hlen, -⟩ := hwhole l hl
    have hsize : cacheSize (content l.file).length = some cache.length :=
      sized_loadFiles hs (l.file, cache) (mem_of_lookup hlookup)
    have hle := cacheSize_le hsize
    rw [hlen] at hle
    exact List.length_eq_zero_iff.mp (by omega)
  · intro hempty
    refine ⟨_, foldlM_of_nil hempty hreported, fun r hr => absurd hr List.not_mem_nil, ?_⟩
    intro l hl
    have hmem : (l.file, []) ∈ (loads.reverse.map fun l => (l.file, ([] : Bytes))) ++ [] := by
      rw [List.append_nil]
      exact List.mem_map_of_mem (f := fun l : FileLoad => (l.file, ([] : Bytes)))
        (List.mem_reverse.mpr hl)
    obtain ⟨cache, hlookup⟩ := Option.isSome_iff_exists.mp
      (List.lookup_isSome_iff.mpr ⟨_, hmem, BEq.rfl⟩)
    have hnil : cache = [] := by
      have hcache := mem_of_lookup (s := ⟨_, []⟩) hlookup
      rw [List.append_nil] at hcache
      obtain ⟨_, -, heq⟩ := List.mem_map.mp hcache
      exact (congrArg Prod.snd heq).symm
    rw [hempty l hl]
    exact ⟨cache, hlookup, by rw [hnil]; rfl, List.nil_prefix⟩

theorem reported_singleton (hsize : (content l.file).length < 2 ^ 31 - 1)
    (h : Reports (content l.file).length (((content l.file).length + 1) / 2) 0 l.counts) :
    Reported content [l] := by
  intro l' hl' n hn
  obtain rfl := List.mem_singleton.mp hl'
  rw [cacheSize_of_lt hsize] at hn
  cases hn
  exact h

/-- A player with one empty file. -/
theorem cachesWhole_of_empty : CachesWhole (fun _ => []) [⟨"silence.pcm", []⟩] := by
  have h : Reported (fun _ => []) [⟨"silence.pcm", []⟩] :=
    reported_singleton (by decide) (show Reports 0 0 0 [] from Or.inl (Nat.le_refl 0))
  exact (cachesWhole_iff h).mpr fun _ _ => rfl

/-- **A sample is cached as one byte**, and six bytes that come one by one are
read past the end of the vector. -/
theorem not_cachesWhole_of_sample :
    (Reported (fun _ => [1, 2]) [⟨"di.pcm", [1]⟩] ∧
        (loadFiles (fun _ => [1, 2]) [⟨"di.pcm", [1]⟩]).map Loaded.mapBuffer =
          some [("di.pcm", [1])] ∧
        ¬ CachesWhole (fun _ => [1, 2]) [⟨"di.pcm", [1]⟩]) ∧
      Reported (fun _ => [1, 2, 3, 4, 5, 6]) [⟨"di.pcm", [1, 1, 1]⟩] ∧
      loadFiles (fun _ => [1, 2, 3, 4, 5, 6]) [⟨"di.pcm", [1, 1, 1]⟩] = none ∧
      ¬ CachesWhole (fun _ => [1, 2, 3, 4, 5, 6]) [⟨"di.pcm", [1, 1, 1]⟩] := by
  have h₁ : Reported (fun _ => [1, 2]) [⟨"di.pcm", [1]⟩] := by
    refine reported_singleton (by decide) ⟨by decide, by decide, by decide, Or.inl (by decide)⟩
  have h₂ : Reported (fun _ => [1, 2, 3, 4, 5, 6]) [⟨"di.pcm", [1, 1, 1]⟩] := by
    refine reported_singleton (by decide) ⟨by decide, by decide, by decide, by decide, by decide,
      by decide, by decide, by decide, by decide, Or.inl (by decide)⟩
  have hnone : loadFiles (fun _ => [1, 2, 3, 4, 5, 6]) [⟨"di.pcm", [1, 1, 1]⟩] = none := by
    decide +kernel
  have hone : (loadFiles (fun _ => [1, 2]) [⟨"di.pcm", [1]⟩]).map Loaded.mapBuffer =
      some [("di.pcm", [1])] := by
    decide +kernel
  refine ⟨⟨h₁, hone, ?_⟩, h₂, hnone, ?_⟩
  · rintro ⟨s, hs, -, hwhole⟩
    obtain ⟨cache, hlookup, hlen, -⟩ := hwhole _ List.mem_cons_self
    rw [hs, Option.map_some, Option.some.injEq] at hone
    rw [hone] at hlookup
    obtain rfl : [1] = cache := Option.some.inj hlookup
    exact absurd hlen (by decide)
  · rintro ⟨s, hs, -⟩
    rw [hnone] at hs
    cases hs

end Files

end PcmCache

end MicAgent
