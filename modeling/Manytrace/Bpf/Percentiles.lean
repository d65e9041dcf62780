import Mathlib.Algebra.Order.BigOperators.Group.Finset
import Manytrace.Bpf.Statistics
import Manytrace.Core.Rank
import Manytrace.Mpscbuf.Common

/-! The latency histograms: the bucket of a latency is its binary logarithm in microseconds,
and user space reads the percentiles off the buckets. -/
namespace Manytrace.Bpf.BlockTrack
open Manytrace.Core Manytrace.Mpscbuf

/-! ## Buckets -/

section Buckets
variable {n k m : ℕ} {r : ℕ × ℕ}

theorem log2_eq_add_shiftRight (h : 2 ^ k ≤ n) : n.log2 = k + (n >>> k).log2 := by
  have hn : n ≠ 0 := by
    have := Nat.two_pow_pos k
    omega
  have hrest : n / 2 ^ k ≠ 0 := Nat.ne_of_gt (Nat.div_pos h (Nat.two_pow_pos k))
  rw [Nat.shiftRight_eq_div_pow, Nat.log2_eq_iff hn]
  have hlow := Nat.log2_self_le hrest
  have hhigh := Nat.lt_log2_self (n := n / 2 ^ k)
  rw [Nat.le_div_iff_mul_le (Nat.two_pow_pos k), ← Nat.pow_add] at hlow
  rw [Nat.div_lt_iff_lt_mul (Nat.two_pow_pos k), ← Nat.pow_add] at hhigh
  constructor
  · rwa [Nat.add_comm]
  · rwa [Nat.add_comm k, Nat.add_right_comm]

/-- The search for the highest bit of `n` has come to a rest of at most `m` bits. -/
structure Searching (n m : ℕ) (r : ℕ × ℕ) : Prop where
  ne_zero : r.1 ≠ 0
  lt : r.1 < 2 ^ m
  log2_eq : n.log2 = r.2 + r.1.log2

theorem Searching.halve (h : Searching n (k + k) r) : Searching n k (halve k r) := by
  obtain ⟨hne, hlt, hlog⟩ := h
  unfold BlockTrack.halve
  rw [Nat.one_shiftLeft]
  by_cases hle : 2 ^ k ≤ r.1
  · rw [if_pos hle]
    refine ⟨?_, ?_, ?_⟩
    · rw [Nat.shiftRight_eq_div_pow]
      exact Nat.ne_of_gt (Nat.div_pos hle (Nat.two_pow_pos k))
    · rw [Nat.shiftRight_eq_div_pow, Nat.div_lt_iff_lt_mul (Nat.two_pow_pos k), ← Nat.pow_add]
      exact hlt
    · rw [hlog, log2_eq_add_shiftRight hle, Nat.add_assoc]
  · rw [if_neg hle]
    exact ⟨hne, Nat.lt_of_not_le hle, hlog⟩

theorem Searching.log2 (h : Searching n 2 r) :
    n.log2 = if 1 <<< 1 ≤ r.1 then r.2 + 1 else r.2 := by
  obtain ⟨hne, hlt, hlog⟩ := h
  have hrest : r.1.log2 = if 2 ≤ r.1 then 1 else 0 := by
    by_cases htwo : 2 ≤ r.1
    · rw [if_pos htwo, Nat.log2_eq_iff hne]
      exact ⟨htwo, hlt⟩
    · rw [if_neg htwo, Nat.log2_eq_iff hne]
      omega
  rw [hlog, hrest]
  change _ = if 2 ≤ r.1 then r.2 + 1 else r.2
  split <;> rfl

theorem latencyBucket_eq (latencyNs : ℕ) :
    latencyBucket latencyNs = min 31 (max 1 (latencyNs / 1000)).log2 := by
  unfold latencyBucket
  dsimp only
  generalize latencyNs / 1000 = micros
  by_cases hone : micros ≤ 1
  · rw [if_pos hone, Nat.max_eq_left hone]
    rfl
  have hmax : max 1 micros = micros := by omega
  have hne : micros ≠ 0 := by omega
  rw [if_neg hone, hmax]
  by_cases hlarge : 2 ^ 31 ≤ micros
  · rw [if_pos (by simpa [histogramBuckets, Nat.one_shiftLeft] using hlarge)]
    have hlog : 31 ≤ micros.log2 := (Nat.le_log2 hne).mpr hlarge
    rw [Nat.min_eq_left hlog]
    rfl
  · have hlog : micros.log2 < 31 := (Nat.log2_lt hne).mpr (by omega)
    rw [if_neg (by simpa [histogramBuckets, Nat.one_shiftLeft] using hlarge),
      Nat.min_eq_right (by omega)]
    have hstart : Searching micros (16 + 16) (micros, 0) :=
      ⟨hne, by omega, (Nat.zero_add _).symm⟩
    exact (hstart.halve.halve (k := 8)).halve (k := 4) |>.halve (k := 2) |>.log2.symm

theorem log2_mono (hle : m ≤ n) (hm : m ≠ 0) : m.log2 ≤ n.log2 := by
  rw [Nat.le_log2 (by omega)]
  exact Nat.le_trans (Nat.log2_self_le hm) hle

theorem latencyBucket_mono : Monotone latencyBucket := by
  intro x y hxy
  have hdiv : x / 1000 ≤ y / 1000 := Nat.div_le_div_right hxy
  have hlog : (max 1 (x / 1000)).log2 ≤ (max 1 (y / 1000)).log2 :=
    log2_mono (by omega) (by omega)
  rw [latencyBucket_eq, latencyBucket_eq]
  omega

/-- The cascade of shifts is the logarithm, at every latency. -/
theorem latency_bucket_is_log2 :
    (∀ latencyNs, latencyBucket latencyNs = min 31 (max 1 (latencyNs / 1000)).log2) ∧
      (∀ latencyNs, latencyBucket latencyNs < histogramBuckets) ∧ Monotone latencyBucket :=
  ⟨latencyBucket_eq, latencyBucket_lt, latencyBucket_mono⟩

end Buckets

/-! ## Recording -/

def recordLatencies (latencies : List ℕ) : ℕ → ℕ :=
  latencies.foldl (fun histogram latencyNs => bump histogram (latencyBucket latencyNs)) fun _ => 0

section Recording
variable {latencies : List ℕ}

theorem foldl_bump_eq (histogram : ℕ → ℕ) (b : ℕ)
    (h : histogram b + latencies.length < 2 ^ 64) :
    latencies.foldl (fun histogram latencyNs => bump histogram (latencyBucket latencyNs))
        histogram b =
      histogram b + latencies.countP fun latencyNs => latencyBucket latencyNs = b := by
  induction latencies generalizing histogram with
  | nil => rfl
  | cons x latencies ih =>
    rw [List.length_cons] at h
    have hbump : bump histogram (latencyBucket x) b =
        histogram b + if latencyBucket x = b then 1 else 0 := by
      unfold bump
      by_cases hx : latencyBucket x = b
      · subst hx
        rw [Function.update_self, if_pos rfl]
        exact Nat.mod_eq_of_lt (by omega)
      · rw [Function.update_of_ne (Ne.symm hx), if_neg hx, Nat.add_zero]
    rw [List.foldl_cons, ih _ (by rw [hbump]; split <;> omega), hbump, List.countP_cons]
    simp only [decide_eq_true_eq]
    omega

theorem recordLatencies_eq (h : latencies.length < 2 ^ 64) (b : ℕ) :
    recordLatencies latencies b =
      latencies.countP fun latencyNs => latencyBucket latencyNs = b := by
  unfold recordLatencies
  rw [foldl_bump_eq _ b (by omega), Nat.zero_add]

theorem sum_recordLatencies (h : latencies.length < 2 ^ 64) (b : ℕ) :
    ∑ j ∈ Finset.range b, recordLatencies latencies j =
      latencies.countP fun latencyNs => latencyBucket latencyNs < b := by
  rw [← sum_countP_eq]
  exact Finset.sum_congr rfl fun j _ => recordLatencies_eq h j

/-- Completions of one operation of a device. -/
def completions (cfg : Cfg) (dev : ℕ) (op : BlockOperation) :
    Machine Maps (Context × CompletionTimes) Empty where
  step s c := (recordCompletion cfg c.1 dev op c.2.queueNs c.2.serviceNs c.2.totalNs s, [])

theorem recordLatencies_concat (latencies : List ℕ) (latencyNs : ℕ) :
    recordLatencies (latencies ++ [latencyNs]) =
      bump (recordLatencies latencies) (latencyBucket latencyNs) := by
  unfold recordLatencies
  rw [List.foldl_append, List.foldl_cons, List.foldl_nil]

/-- The histograms of an operation hold these completions. -/
structure Holds (dev : ℕ) (op : BlockOperation) (s : Maps)
    (cs : List (Context × CompletionTimes)) : Prop where
  stats : HasStats dev s
  service : (operationStats s dev op).serviceHistogram =
    recordLatencies (cs.map fun c => c.2.serviceNs)
  total : (operationStats s dev op).totalHistogram = recordLatencies (cs.map fun c => c.2.totalNs)

theorem Holds.step {cfg : Cfg} (hlatency : cfg.latencyEnabled = true) {dev : ℕ}
    {op : BlockOperation} {s : Maps} {cs : List (Context × CompletionTimes)}
    (h : Holds dev op s cs) (c : Context × CompletionTimes) :
    Holds dev op ((completions cfg dev op).step s c).1 (cs ++ [c]) := by
  have hstep : operationStats ((completions cfg dev op).step s c).1 dev op =
      (operationStats s dev op).addCompletion cfg c.2 := by
    rw [completions, operationStats_recordCompletion, if_pos ⟨rfl, rfl, h.stats.kept c.1⟩]
  refine ⟨h.stats.recordCompletion .., ?_, ?_⟩
  · rw [hstep, List.map_append, List.map_singleton, recordLatencies_concat, ← h.service]
    simp [OperationStats.addCompletion, hlatency]
  · rw [hstep, List.map_append, List.map_singleton, recordLatencies_concat, ← h.total]
    simp [OperationStats.addCompletion, hlatency]

theorem holds_completions {cfg : Cfg} (hlatency : cfg.latencyEnabled = true) {dev : ℕ}
    {op : BlockOperation} {s : Maps} (hstats : HasStats dev s)
    (hzero : operationStats s dev op = {}) (cs : List (Context × CompletionTimes)) :
    Holds dev op ((completions cfg dev op).final s cs) cs := by
  have hnil : Holds dev op s [] := by
    refine ⟨hstats, ?_, ?_⟩ <;> rw [hzero] <;> rfl
  exact Machine.history_inputs (fun _ _ c h _ => h.step hlatency c) hnil
    (Machine.meets_of_forall (P := fun _ => True) (fun _ _ => trivial) s)

end Recording

/-! ## Percentiles -/

/-- What is reported for a bucket, in microseconds. -/
def bucketMicros (bucket : ℕ) : ℕ := if bucket = 0 then 1 else 1 <<< min (bucket + 1) 32

section Percentile
variable (o : OverflowMode) (histogram : ℕ → ℕ)

def sumHistogram : Option ℕ :=
  (List.range histogramBuckets).foldlM (fun total bucket => o.add total (histogram bucket)) 0

/-- The loop over the buckets, which may end without a result. -/
def findBucket (target : ℕ) : ℕ → List ℕ → Option (Option ℕ)
  | _, [] => some none
  | cumulative, bucket :: rest => do
    let cumulative ← o.add cumulative (histogram bucket)
    if target ≤ cumulative then return some bucket
    else findBucket target cumulative rest

/-- The target is `rank total`, which the code computes with floating point numbers. -/
def histogramPercentile (rank : ℕ → ℕ) : Option ℕ := do
  let total ← sumHistogram o histogram
  if total = 0 then return 0
  let found ← findBucket o histogram (rank total) 0 (List.range histogramBuckets)
  match found with
  | some bucket => return bucketMicros bucket
  | none => return 1 <<< 32

variable {o histogram}

theorem foldlM_add_eq {n : ℕ} (h : ∑ j ∈ Finset.range n, histogram j < 2 ^ 64) :
    (List.range n).foldlM (fun total bucket => o.add total (histogram bucket)) 0 =
      some (∑ j ∈ Finset.range n, histogram j) := by
  induction n with
  | zero => rfl
  | succ n ih =>
    rw [Finset.sum_range_succ] at h ⊢
    rw [List.range_succ, List.foldlM_append, ih (by omega)]
    simp [o.add_of_lt h]

/-- The loop stops at the first bucket that reaches the target. -/
theorem findBucket_eq {target b k m : ℕ} (hk : k ≤ b) (hb : b < k + m)
    (hbelow : ∑ j ∈ Finset.range b, histogram j < target)
    (hreach : target ≤ ∑ j ∈ Finset.range (b + 1), histogram j)
    (htotal : ∑ j ∈ Finset.range (k + m), histogram j < 2 ^ 64) :
    findBucket o histogram target (∑ j ∈ Finset.range k, histogram j) (List.range' k m) =
      some (some b) := by
  induction m generalizing k with
  | zero => omega
  | succ m ih =>
    have hnext : ∑ j ∈ Finset.range (k + 1), histogram j < 2 ^ 64 := by
      refine Nat.lt_of_le_of_lt ?_ htotal
      exact Finset.sum_le_sum_of_subset (Finset.range_subset_range.mpr (by omega))
    rw [List.range'_succ, findBucket, o.add_of_lt (by rwa [← Finset.sum_range_succ]),
      ← Finset.sum_range_succ]
    by_cases heq : k = b
    · subst heq
      simp [hreach]
    · have hle : ∑ j ∈ Finset.range (k + 1), histogram j ≤ ∑ j ∈ Finset.range b, histogram j :=
        Finset.sum_le_sum_of_subset (Finset.range_subset_range.mpr (by omega))
      have hnot : ¬ target ≤ ∑ j ∈ Finset.range (k + 1), histogram j := by omega
      rw [Option.bind_eq_bind, Option.bind_some, if_neg hnot]
      exact ih (by omega) (by omega) (by rwa [Nat.add_assoc, Nat.add_comm 1 m])

theorem bucketMicros_mono : Monotone bucketMicros := by
  intro b c hbc
  unfold bucketMicros
  have hpow : ∀ k, 1 ≤ 1 <<< k := fun k => by
    rw [Nat.one_shiftLeft]
    exact Nat.two_pow_pos k
  split_ifs with hb hc hc
  · exact Nat.le_refl 1
  · exact hpow _
  · omega
  · rw [Nat.one_shiftLeft, Nat.one_shiftLeft]
    exact Nat.pow_le_pow_right (by decide) (by omega)

end Percentile

section NearestRank
variable {latencies : List ℕ} {p : ℕ}

theorem countP_latencyBucket_lt (latencies : List ℕ) :
    latencies.countP (fun latencyNs => latencyBucket latencyNs < histogramBuckets) =
      latencies.length := by
  rw [List.countP_eq_length]
  intro x _
  exact decide_eq_true (latencyBucket_lt x)

/-- The bucket that is found is the one of the latency with this rank. -/
theorem findBucket_recordLatencies (o : OverflowMode) (hlen : latencies.length < 2 ^ 64) {r x : ℕ}
    (hpos : 0 < r) (hx : ranked latencies r = some x) :
    findBucket o (recordLatencies latencies) r 0 (List.range histogramBuckets) =
      some (some (latencyBucket x)) := by
  have hiff := ranked_le_iff latencyBucket_mono hpos hx
  have hcount : ∀ b, (latencies.countP fun y => latencyBucket y < b) =
      ∑ j ∈ Finset.range b, recordLatencies latencies j :=
    fun b => (sum_recordLatencies hlen b).symm
  have hreach : r ≤ ∑ j ∈ Finset.range (latencyBucket x + 1), recordLatencies latencies j := by
    have h := (hiff (latencyBucket x)).mp (Nat.le_refl _)
    simpa only [← hcount, Nat.lt_succ_iff] using h
  have hbelow : ∑ j ∈ Finset.range (latencyBucket x), recordLatencies latencies j < r := by
    cases hb : latencyBucket x with
    | zero => simpa using hpos
    | succ b =>
      have h : ¬ r ≤ latencies.countP fun y => latencyBucket y ≤ b :=
        fun hle => absurd ((hiff b).mpr hle) (by omega)
      rw [← hcount]
      simpa only [Nat.lt_succ_iff, Nat.not_le] using h
  have htotal : ∑ j ∈ Finset.range (0 + histogramBuckets), recordLatencies latencies j <
      2 ^ 64 := by
    rw [Nat.zero_add, ← hcount, countP_latencyBucket_lt]
    exact hlen
  have hfind := findBucket_eq (o := o) (k := 0) (Nat.zero_le _)
    (by rw [Nat.zero_add]; exact latencyBucket_lt x) hbelow hreach htotal
  rwa [Finset.range_zero, Finset.sum_empty, ← List.range_eq_range'] at hfind

theorem histogramPercentile_eq (o : OverflowMode) (hlen : latencies.length < 2 ^ 64) {x : ℕ}
    (hp : 0 < p) (hx : ranked latencies (nearestRank p latencies.length) = some x) :
    histogramPercentile o (recordLatencies latencies) (nearestRank p) =
      some (bucketMicros (latencyBucket x)) := by
  have hn : 0 < latencies.length := List.length_pos_of_mem (mem_of_ranked hx)
  have hsum : sumHistogram o (recordLatencies latencies) = some latencies.length := by
    unfold sumHistogram
    have htotal := sum_recordLatencies hlen histogramBuckets
    rw [countP_latencyBucket_lt] at htotal
    rw [foldlM_add_eq (by rwa [htotal]), htotal]
  have hfind := findBucket_recordLatencies o hlen (nearestRank_pos hp hn) hx
  unfold histogramPercentile
  rw [hsum, Option.bind_eq_bind, Option.bind_some, if_neg (by omega), hfind]
  rfl

theorem exists_nearestRank (hne : latencies ≠ []) (hp : 0 < p) (hp' : p ≤ 100) :
    ∃ x, ranked latencies (nearestRank p latencies.length) = some x :=
  exists_ranked latencies (nearestRank_pos hp (List.length_pos_of_ne_nil hne))
    (nearestRank_le hp' _)

end NearestRank

/-- A percentile is read off the bucket of the latency with the nearest rank, and the loop never
runs out of buckets. -/
theorem percentile_of_nearest_rank (o : OverflowMode) (latencies : List ℕ)
    (hne : latencies ≠ []) (hlen : latencies.length < 2 ^ 64) :
    (∀ p, 0 < p → p ≤ 100 → ∃ x,
      ranked latencies (nearestRank p latencies.length) = some x ∧
      findBucket o (recordLatencies latencies) (nearestRank p latencies.length) 0
        (List.range histogramBuckets) = some (some (latencyBucket x)) ∧
      histogramPercentile o (recordLatencies latencies) (nearestRank p) =
        some (bucketMicros (latencyBucket x))) ∧
    ∀ p q, 0 < p → p ≤ q → q ≤ 100 → ∃ v w,
      histogramPercentile o (recordLatencies latencies) (nearestRank p) = some v ∧
      histogramPercentile o (recordLatencies latencies) (nearestRank q) = some w ∧ v ≤ w := by
  constructor
  · intro p hp hp'
    obtain ⟨x, hx⟩ := exists_nearestRank hne hp hp'
    have hpos := nearestRank_pos hp (List.length_pos_of_ne_nil hne)
    exact ⟨x, hx, findBucket_recordLatencies o hlen hpos hx, histogramPercentile_eq o hlen hp hx⟩
  · intro p q hp hpq hq
    obtain ⟨x, hx⟩ := exists_nearestRank hne hp (Nat.le_trans hpq hq)
    obtain ⟨y, hy⟩ := exists_nearestRank hne (Nat.lt_of_lt_of_le hp hpq) hq
    refine ⟨_, _, histogramPercentile_eq o hlen hp hx,
      histogramPercentile_eq o hlen (Nat.lt_of_lt_of_le hp hpq) hy, ?_⟩
    have hpos := nearestRank_pos hp (List.length_pos_of_ne_nil hne)
    have hxy : latencyBucket x ≤ latencyBucket y := by
      rw [ranked_le_iff latencyBucket_mono hpos hx]
      exact Nat.le_trans (nearestRank_mono hpq _) ((ranked_le_iff latencyBucket_mono
        (Nat.lt_of_lt_of_le hpos (nearestRank_mono hpq _)) hy _).mp (Nat.le_refl _))
    exact bucketMicros_mono hxy

theorem percentile_of_two_reads :
    [9000, 1500] ≠ [] ∧ [9000, 1500].length < 2 ^ 64 ∧
      ∃ x, ranked [9000, 1500] (nearestRank 95 2) = some x ∧
        findBucket .checked (recordLatencies [9000, 1500]) (nearestRank 95 2) 0
          (List.range histogramBuckets) = some (some (latencyBucket x)) ∧
        histogramPercentile .checked (recordLatencies [9000, 1500]) (nearestRank 95) =
          some (bucketMicros (latencyBucket x)) :=
  ⟨by decide, by decide,
    (percentile_of_nearest_rank .checked [9000, 1500] (by decide) (by decide)).1 95 (by decide)
      (by decide)⟩

/-! ## Upper bounds -/

section Bounds
variable {x : ℕ}

/-- Above the first bucket, the reported value is the upper end of the bucket. -/
theorem bucketMicros_bounds (hx : x < 2 ^ 32 * 1000) (htwo : 2000 ≤ x) :
    x < 1000 * bucketMicros (latencyBucket x) ∧ 1000 * bucketMicros (latencyBucket x) ≤ 2 * x := by
  have hmicros : 2 ≤ x / 1000 := by omega
  have hne : x / 1000 ≠ 0 := by omega
  have hlow := Nat.log2_self_le hne
  have hhigh := Nat.lt_log2_self (n := x / 1000)
  have hlt : (x / 1000).log2 < 32 := (Nat.log2_lt hne).mpr (by omega)
  have hone : 1 ≤ (x / 1000).log2 := (Nat.le_log2 hne).mpr hmicros
  have hbucket : latencyBucket x = (x / 1000).log2 := by
    rw [latencyBucket_eq, Nat.max_eq_right (by omega)]
    omega
  have hvalue : bucketMicros (latencyBucket x) = 2 * 2 ^ (x / 1000).log2 := by
    rw [hbucket, bucketMicros, if_neg (by omega), Nat.one_shiftLeft, Nat.min_eq_left (by omega),
      Nat.pow_succ, Nat.mul_comm]
  rw [Nat.pow_succ] at hhigh
  rw [hvalue]
  omega

theorem bucketMicros_first (hx : x < 2000) : bucketMicros (latencyBucket x) = 1 := by
  have hmicros : max 1 (x / 1000) = 1 := by omega
  rw [latencyBucket_eq, hmicros]
  rfl

end Bounds

/-- The reported percentile is an upper bound within a factor of two, except where the latency
of that rank is between one and two microseconds: the first bucket goes up to two microseconds
and is reported as one. -/
theorem percentile_bounds_iff (o : OverflowMode) (latencies : List ℕ) (hne : latencies ≠ [])
    (hlen : latencies.length < 2 ^ 64) (hlat : ∀ x ∈ latencies, x < 2 ^ 32 * 1000) (p : ℕ)
    (hp : 0 < p) (hp' : p ≤ 100) :
    ∃ x v, ranked latencies (nearestRank p latencies.length) = some x ∧
      histogramPercentile o (recordLatencies latencies) (nearestRank p) = some v ∧
      (x ≤ 1000 * v ∧ 1000 * v ≤ 2 * max 1000 x ↔ ¬ (1000 < x ∧ x < 2000)) := by
  obtain ⟨x, hx⟩ := exists_nearestRank hne hp hp'
  refine ⟨x, _, hx, histogramPercentile_eq o hlen hp hx, ?_⟩
  by_cases hfirst : x < 2000
  · rw [bucketMicros_first hfirst]
    omega
  · have hbounds := bucketMicros_bounds (hlat x (mem_of_ranked hx)) (by omega)
    omega

theorem percentile_bounds_two_reads :
    ∃ x v, ranked [9000, 3000] (nearestRank 99 2) = some x ∧
      histogramPercentile .wrapping (recordLatencies [9000, 3000]) (nearestRank 99) = some v ∧
      (x ≤ 1000 * v ∧ 1000 * v ≤ 2 * max 1000 x ↔ ¬ (1000 < x ∧ x < 2000)) :=
  percentile_bounds_iff .wrapping [9000, 3000] (by decide) (by decide) (by decide) 99 (by decide)
    (by decide)

/-- One read of 1.5 microseconds. -/
theorem percentile_below_latency :
    ranked [1500] (nearestRank 50 1) = some 1500 ∧
      histogramPercentile .wrapping (recordLatencies [1500]) (nearestRank 50) = some 1 ∧
      ¬ 1500 ≤ 1000 * 1 := by
  refine ⟨?_, by decide, by decide⟩
  simp [ranked, nearestRank]

end Manytrace.Bpf.BlockTrack
