import Mathlib.Algebra.Ring.Nat
import Mathlib.Data.List.Induction
import Mathlib.Data.List.Sort
import Mathlib.Order.Bounds.Basic

/-!
# The K-best sampler

`fcyc.c`, which times the requests of a trace for `eval_mm_speed`: it keeps the
`kbest` smallest of the times that it has measured, until these are close to each
other or there are too many. A time is of any linear order, as a `double` is that
is a number; how close the times have to be is a parameter.
-/

set_option autoImplicit false

namespace OsPractices.Mdriver

variable {Time : Type} [LinearOrder Time]

/-- What it means to keep the `kbest` smallest samples, in ascending order. -/
structure KBest (kbest : Nat) (samples values : List Time) : Prop where
  sorted : values.Pairwise (· ≤ ·)
  length : values.length = min kbest samples.length
  split : ∃ discarded, (values ++ discarded).Perm samples ∧
    ∀ value ∈ values, ∀ other ∈ discarded, value ≤ other

/-- They are the first of all samples in ascending order. -/
theorem KBest.eq_take {kbest : Nat} {samples values : List Time} (best : KBest kbest samples values) :
    values = (samples.insertionSort (· ≤ ·)).take kbest := by
  obtain ⟨discarded, perm, above⟩ := best.split
  have sorted : (values ++ discarded.insertionSort (· ≤ ·)).Pairwise (· ≤ ·) := by
    refine List.pairwise_append.mpr ⟨best.sorted, List.pairwise_insertionSort _ _, ?_⟩
    intro value member other out
    exact above value member other ((List.mem_insertionSort _).mp out)
  have all : (values ++ discarded.insertionSort (· ≤ ·)).Perm (samples.insertionSort (· ≤ ·)) :=
    (((List.perm_insertionSort _ discarded).append_left values).trans perm).trans
      (List.perm_insertionSort _ samples).symm
  have same := all.eq_of_pairwise' sorted (List.pairwise_insertionSort _ _)
  have long := best.length
  rw [← same]
  rcases le_total kbest samples.length with many | few
  · rw [min_eq_left many] at long
    exact (List.take_left' long).symm
  · have total := all.length_eq
    rw [min_eq_right few] at long
    rw [List.length_insertionSort, ← long] at total
    rw [List.take_of_length_le (by omega)]
    have none : discarded = [] := by simpa using total
    rw [none]
    exact (List.append_nil values).symm

/-! ## The sampler -/

structure Sampler (Time : Type) where
  kbest : Nat
  values : List Time
  samplecount : Nat

/-- The loop that sorts a new value into those before it. -/
def sortIn : Nat → List Time → List Time
  | 0, values => values
  | pos + 1, values =>
      match values[pos]?, values[pos + 1]? with
      | some before, some val =>
          if val < before then sortIn pos ((values.set pos val).set (pos + 1) before) else values
      | _, _ => values

namespace Sampler

/-- `init_sampler` -/
def init [Zero Time] (kbest : Nat) : Sampler Time := ⟨kbest, List.replicate kbest 0, 0⟩

/-- `add_sample`; `none` where it reads outside `values`. -/
def addSample (sampler : Sampler Time) (val : Time) : Option (Sampler Time) :=
  if sampler.samplecount < sampler.kbest then
    some { sampler with
      values := sortIn sampler.samplecount (sampler.values.set sampler.samplecount val)
      samplecount := sampler.samplecount + 1 }
  else
    match sampler.values[sampler.kbest - 1]? with
    | none => none
    | some last =>
        if val < last then
          some { sampler with
            values := sortIn (sampler.kbest - 1) (sampler.values.set (sampler.kbest - 1) val)
            samplecount := sampler.samplecount + 1 }
        else some { sampler with samplecount := sampler.samplecount + 1 }

/-- `has_converged`; `near` compares the smallest value with the last one. -/
def hasConverged (near : Time → Time → Bool) (sampler : Sampler Time) : Bool :=
  decide (sampler.kbest ≤ sampler.samplecount) &&
    match sampler.values[0]?, sampler.values[sampler.kbest - 1]? with
    | some best, some last => near best last
    | _, _ => false

end Sampler

/-- The loop of `fcyc`; `time` is what the counter says of each call of the function. -/
def fcycLoop (near : Time → Time → Bool) (maxsamples : Nat) (time : Nat → Time) :
    Nat → Sampler Time → Option (Sampler Time)
  | 0, _ => none
  | fuel + 1, sampler =>
      match sampler.addSample (time sampler.samplecount) with
      | none => none
      | some sampler =>
          if ¬ sampler.hasConverged near ∧ sampler.samplecount < maxsamples then
            fcycLoop near maxsamples time fuel sampler
          else some sampler

def fcyc [Zero Time] (near : Time → Time → Bool) (kbest maxsamples : Nat) (time : Nat → Time) :
    Option Time :=
  match fcycLoop near maxsamples time (max 1 maxsamples) (.init kbest) with
  | none => none
  | some sampler => sampler.values[0]?

/-! ## What the loop that sorts does -/

theorem le_last {front : List Time} {last other : Time}
    (sorted : (front ++ [last]).Pairwise (· ≤ ·)) (member : other ∈ front ++ [last]) :
    other ≤ last := by
  rcases List.mem_append.mp member with inFront | isLast
  · exact (List.pairwise_append.mp sorted).2.2 other inFront last List.mem_cons_self
  · exact (List.mem_singleton.mp isLast).le

/-- The value moves down to its place among the smaller ones; nothing behind the
values that are sorted is touched. -/
theorem sortIn_sorts (front rest behind : List Time) (val : Time)
    (sorted : (front ++ rest).Pairwise (· ≤ ·)) (least : ∀ other ∈ rest, val ≤ other) :
    ∃ result, sortIn front.length (front ++ val :: rest ++ behind) = result ++ behind ∧
      result.Pairwise (· ≤ ·) ∧ result.Perm (front ++ val :: rest) := by
  induction front using List.reverseRecOn generalizing rest with
  | nil => exact ⟨val :: rest, rfl, List.pairwise_cons.mpr ⟨least, sorted⟩, .rfl⟩
  | append_singleton front last ih =>
      have here : (front ++ [last] ++ val :: rest ++ behind)[front.length]? = some last := by simp
      have next : (front ++ [last] ++ val :: rest ++ behind)[front.length + 1]? = some val := by
        simp
      rw [List.length_append, List.length_singleton, sortIn, here, next]
      dsimp only
      split
      case isTrue less =>
        have swapped : ((front ++ [last] ++ val :: rest ++ behind).set front.length val).set
            (front.length + 1) last = front ++ val :: (last :: rest) ++ behind := by simp
        rw [swapped]
        have sorted' : (front ++ last :: rest).Pairwise (· ≤ ·) := by simpa using sorted
        obtain ⟨result, same, ascending, perm⟩ := ih (last :: rest) sorted' (by
          intro other member
          rcases List.mem_cons.mp member with rfl | later
          · exact less.le
          · exact least other later)
        refine ⟨result, same, ascending, perm.trans ?_⟩
        simpa using (List.Perm.swap last val rest).append_left front
      case isFalse notLess =>
        obtain ⟨before, after, across⟩ := List.pairwise_append.mp sorted
        refine ⟨front ++ [last] ++ val :: rest, rfl, List.pairwise_append.mpr ⟨before,
          List.pairwise_cons.mpr ⟨least, after⟩, fun other member later isLater => ?_⟩, .rfl⟩
        rcases List.mem_cons.mp isLater with rfl | inRest
        · exact (le_last before member).trans (not_lt.mp notLess)
        · exact across other member later inRest

/-! ## What the sampler keeps -/

/-- The sampler has been given the samples. -/
structure Sampler.Has (sampler : Sampler Time) (samples : List Time) : Prop where
  count : sampler.samplecount = samples.length
  size : sampler.values.length = sampler.kbest
  best : KBest sampler.kbest samples (sampler.values.take sampler.samplecount)

theorem Sampler.has_init [Zero Time] (kbest : Nat) : (init kbest : Sampler Time).Has [] where
  count := rfl
  size := List.length_replicate
  best := ⟨.nil, by simp [init], [], .rfl, by simp [init]⟩

/-- Before there are `kbest` samples, all are kept. -/
theorem KBest.all {kbest : Nat} {samples values : List Time} (best : KBest kbest samples values)
    (few : samples.length ≤ kbest) : values.Perm samples := by
  obtain ⟨discarded, perm, _⟩ := best.split
  have long := perm.length_eq
  rw [List.length_append, best.length, min_eq_right few] at long
  have none : discarded = [] := List.length_eq_zero_iff.mp (by omega)
  rwa [none, List.append_nil] at perm

/-- Before there are `kbest` samples, a new one is kept with them. -/
theorem KBest.more {kbest : Nat} {samples values more : List Time} {val : Time}
    (best : KBest kbest samples values) (few : samples.length < kbest)
    (sorted : more.Pairwise (· ≤ ·)) (perm : more.Perm (values ++ [val])) :
    KBest kbest (samples ++ [val]) more where
  sorted := sorted
  length := by
    rw [perm.length_eq, List.length_append, List.length_append, best.length,
      List.length_singleton, min_eq_right few.le, min_eq_right (by omega)]
  split := by
    refine ⟨[], ?_, by simp⟩
    rw [List.append_nil]
    exact perm.trans ((best.all few.le).append_right [val])

/-- When there are `kbest` samples, one that is smaller than the last takes its place. -/
theorem KBest.replace {kbest : Nat} {samples front more : List Time} {last val : Time}
    (best : KBest kbest samples (front ++ [last])) (many : kbest ≤ samples.length)
    (less : val < last) (sorted : more.Pairwise (· ≤ ·)) (perm : more.Perm (front ++ [val])) :
    KBest kbest (samples ++ [val]) more where
  sorted := sorted
  length := by
    have long := best.length
    rw [List.length_append, List.length_singleton, min_eq_left many] at long
    rw [perm.length_eq, List.length_append, List.length_append, List.length_singleton, long,
      min_eq_left (by omega)]
  split := by
    obtain ⟨discarded, all, above⟩ := best.split
    refine ⟨last :: discarded, ?_, fun value member other out => ?_⟩
    · calc more ++ last :: discarded
        List.Perm _ (front ++ [val] ++ last :: discarded) := perm.append_right _
        List.Perm _ (val :: (front ++ [last] ++ discarded)) := by simp [List.perm_middle]
        List.Perm _ (val :: samples) := all.cons val
        List.Perm _ (samples ++ [val]) := (List.perm_append_singleton val samples).symm
    · have small : value ≤ last := by
        rcases List.mem_append.mp (perm.mem_iff.mp member) with before | new
        · exact le_last best.sorted (List.mem_append_left _ before)
        · exact (List.mem_singleton.mp new).trans_le less.le
      rcases List.mem_cons.mp out with rfl | before
      · exact small
      · exact small.trans (above last (by simp) other before)

/-- When there are `kbest` samples, one that is not smaller than the last is discarded. -/
theorem KBest.discard {kbest : Nat} {samples front : List Time} {last val : Time}
    (best : KBest kbest samples (front ++ [last])) (many : kbest ≤ samples.length)
    (notLess : last ≤ val) : KBest kbest (samples ++ [val]) (front ++ [last]) where
  sorted := best.sorted
  length := by
    rw [best.length, min_eq_left many, List.length_append, min_eq_left (by omega)]
  split := by
    obtain ⟨discarded, all, above⟩ := best.split
    refine ⟨val :: discarded, ?_, fun value member other out => ?_⟩
    · calc front ++ [last] ++ val :: discarded
        List.Perm _ (val :: (front ++ [last] ++ discarded)) := List.perm_middle
        List.Perm _ (val :: samples) := all.cons val
        List.Perm _ (samples ++ [val]) := (List.perm_append_singleton val samples).symm
    · rcases List.mem_cons.mp out with rfl | before
      · exact (le_last best.sorted member).trans notLess
      · exact above value member other before

omit [LinearOrder Time] in
theorem exists_split {values : List Time} {pos : Nat} (inside : pos < values.length) :
    ∃ front old behind, values = front ++ old :: behind ∧ front.length = pos := by
  refine ⟨values.take pos, values[pos], values.drop (pos + 1), ?_, ?_⟩
  · rw [← List.drop_eq_getElem_cons inside, List.take_append_drop]
  · rw [List.length_take, min_eq_left inside.le]

theorem Sampler.Has.add {sampler : Sampler Time} {samples : List Time} (has : sampler.Has samples)
    (positive : 0 < sampler.kbest) (val : Time) :
    ∃ next, sampler.addSample val = some next ∧ next.kbest = sampler.kbest ∧
      next.Has (samples ++ [val]) := by
  obtain ⟨count, size, best⟩ := has
  unfold addSample
  by_cases few : sampler.samplecount < sampler.kbest
  · rw [if_pos few]
    obtain ⟨front, old, behind, same, long⟩ := exists_split (size ▸ few)
    have shown : KBest sampler.kbest samples front := by simpa [same, ← long] using best
    have placed : sampler.values.set sampler.samplecount val = front ++ val :: [] ++ behind := by
      simp [same, ← long]
    obtain ⟨result, sorts, sorted, perm⟩ :=
      sortIn_sorts front [] behind val (by simpa using shown.sorted) (by simp)
    have longer : result.length = sampler.samplecount + 1 := by simp [perm.length_eq, long]
    rw [placed, ← long, sorts, long]
    refine ⟨_, rfl, rfl, by simp [count], ?_, ?_⟩
    · have all := congrArg List.length same
      simp only [List.length_append, List.length_cons] at all ⊢
      omega
    · dsimp only
      rw [List.take_left' longer]
      exact shown.more (count ▸ few) sorted perm
  · rw [if_neg few]
    obtain ⟨front, last, behind, same, long⟩ :=
      exists_split (show sampler.kbest - 1 < sampler.values.length by omega)
    have none : behind = [] := by
      have all := congrArg List.length same
      rw [List.length_append, List.length_cons] at all
      exact List.length_eq_zero_iff.mp (by omega)
    subst none
    have isLast : sampler.values[sampler.kbest - 1]? = some last := by simp [same, ← long]
    have whole {values : List Time} {count : Nat} (long : values.length = sampler.kbest)
        (many : sampler.kbest ≤ count) : values.take count = values :=
      List.take_of_length_le (by omega)
    have many : sampler.kbest ≤ sampler.samplecount := not_lt.mp few
    rw [whole size many, same] at best
    rw [isLast]
    dsimp only
    split
    case isTrue less =>
      have placed : sampler.values.set (sampler.kbest - 1) val = front ++ val :: [] ++ [] := by
        simp [same, ← long]
      obtain ⟨result, sorts, sorted, perm⟩ := sortIn_sorts front [] [] val
        (by simpa using (List.pairwise_append.mp best.sorted).1) (by simp)
      have asLong : result.length = sampler.kbest := by
        rw [perm.length_eq, List.length_append, long, List.length_singleton]
        omega
      rw [placed, ← long, sorts, List.append_nil]
      refine ⟨_, rfl, rfl, by simp [count], asLong, ?_⟩
      dsimp only
      rw [whole asLong (by omega)]
      exact best.replace (count ▸ many) less sorted perm
    case isFalse notLess =>
      refine ⟨_, rfl, rfl, by simp [count], size, ?_⟩
      dsimp only
      rw [whole size (by omega), same]
      exact best.discard (count ▸ many) (not_lt.mp notLess)

/-! ## What `fcyc` measures -/

/-- The first measurements. -/
def measured (time : Nat → Time) (count : Nat) : List Time := (List.range count).map time

omit [LinearOrder Time] in
theorem measured_succ (time : Nat → Time) (count : Nat) :
    measured time (count + 1) = measured time count ++ [time count] := by
  unfold measured
  rw [List.range_succ, List.map_append]
  rfl

/-- The `kbest` smallest of the first measurements are close to each other. -/
def Converged (near : Time → Time → Bool) (kbest : Nat) (time : Nat → Time) (count : Nat) : Prop :=
  kbest ≤ count ∧ ∃ values best last, KBest kbest (measured time count) values ∧
    values[0]? = some best ∧ values[kbest - 1]? = some last ∧ near best last = true

theorem Sampler.Has.converged_iff {near : Time → Time → Bool} {time : Nat → Time} {count : Nat}
    {sampler : Sampler Time} (has : sampler.Has (measured time count)) :
    sampler.hasConverged near = true ↔ Converged near sampler.kbest time count := by
  have counted : sampler.samplecount = count := by
    rw [has.count, measured, List.length_map, List.length_range]
  have all (many : sampler.kbest ≤ count) :
      sampler.values.take sampler.samplecount = sampler.values :=
    List.take_of_length_le (by rw [has.size, counted]; exact many)
  have best := has.best
  unfold Sampler.hasConverged
  rw [counted, Bool.and_eq_true, decide_eq_true_iff]
  constructor
  · rintro ⟨many, isNear⟩
    rw [all many] at best
    split at isNear
    case h_1 first last isFirst isLast => exact ⟨many, _, _, _, best, isFirst, isLast, isNear⟩
    case h_2 => cases isNear
  · rintro ⟨many, values, first, last, best', isFirst, isLast, isNear⟩
    rw [all many] at best
    obtain rfl : values = sampler.values := best'.eq_take.trans best.eq_take.symm
    refine ⟨many, ?_⟩
    rw [isFirst, isLast]
    exact isNear

theorem fcycLoop_stops {near : Time → Time → Bool} {maxsamples : Nat} {time : Nat → Time}
    {fuel count : Nat} {sampler : Sampler Time} (has : sampler.Has (measured time count))
    (positive : 0 < sampler.kbest) (enough : maxsamples ≤ count + fuel) (some : 0 < fuel) :
    ∃ next total, fcycLoop near maxsamples time fuel sampler = Option.some next ∧
      next.kbest = sampler.kbest ∧ next.Has (measured time total) ∧
      count < total ∧ total ≤ count + fuel ∧
      (Converged near sampler.kbest time total ∨ maxsamples ≤ total) ∧
      ∀ earlier, count < earlier → earlier < total →
        ¬ Converged near sampler.kbest time earlier ∧ earlier < maxsamples := by
  induction fuel generalizing count sampler with
  | zero => cases some
  | succ fuel ih =>
      have counted : sampler.samplecount = count := by
        rw [has.count, measured, List.length_map, List.length_range]
      obtain ⟨next, added, kept, more⟩ := has.add positive (time count)
      rw [← measured_succ] at more
      have counted' : next.samplecount = count + 1 := by
        rw [more.count, measured, List.length_map, List.length_range]
      have converged : next.hasConverged near = true ↔
          Converged near next.kbest time (count + 1) := more.converged_iff
      rw [kept] at converged
      unfold fcycLoop
      rw [counted, added]
      dsimp only
      rw [counted']
      split
      case isTrue goesOn =>
        rw [converged] at goesOn
        obtain ⟨last, total, runs, kept', has', after, before, stops, waits⟩ :=
          ih more (kept ▸ positive) (by omega) (by omega)
        rw [kept] at kept' stops waits
        refine ⟨last, total, runs, kept', has', by omega, by omega, stops,
          fun earlier later sooner => ?_⟩
        rcases Nat.lt_or_ge (count + 1) earlier with behind | now
        · exact waits earlier behind sooner
        · obtain rfl : earlier = count + 1 := by omega
          exact goesOn
      case isFalse stops =>
        rw [converged] at stops
        refine ⟨next, count + 1, rfl, kept, more, by omega, by omega, ?_,
          fun earlier later sooner => by omega⟩
        by_cases isNear : Converged near sampler.kbest time (count + 1)
        · exact .inl isNear
        · exact .inr (not_lt.mp fun fewer => stops ⟨isNear, fewer⟩)

/-- The first value that is kept is the least of all samples. -/
theorem KBest.least {kbest : Nat} {samples values : List Time} (best : KBest kbest samples values)
    (positive : 0 < kbest) (some : samples ≠ []) :
    ∃ least, values[0]? = Option.some least ∧ IsLeast {sample | sample ∈ samples} least := by
  have long : 0 < values.length := by
    rw [best.length]
    exact lt_min positive (List.length_pos_iff.mpr some)
  obtain ⟨discarded, perm, above⟩ := best.split
  obtain ⟨least, rest, same⟩ := List.exists_cons_of_length_pos long
  subst same
  refine ⟨least, rfl, perm.mem_iff.mp (by simp), fun sample member => ?_⟩
  rcases List.mem_append.mp (perm.mem_iff.mpr member) with kept | out
  · rcases List.mem_cons.mp kept with rfl | later
    · exact le_refl _
    · exact (List.pairwise_cons.mp best.sorted).1 sample later
  · exact above least List.mem_cons_self sample out

/-- What is promised of the sampler at the end of `fcyc`: the insertions have left the
`kbest` smallest of all measurements in ascending order. It stops at the first number of
measurements at which these are close to each other, and at `maxsamples` at the latest,
though not before the first one. -/
structure Sampler.Measures (near : Time → Time → Bool) (kbest maxsamples : Nat)
    (time : Nat → Time) (sampler : Sampler Time) (total : Nat) : Prop where
  best : KBest kbest (measured time total) (sampler.values.take total)
  nonempty : 1 ≤ total
  limit : total ≤ max 1 maxsamples
  stops : Converged near kbest time total ∨ maxsamples ≤ total
  goesOn : ∀ earlier, 1 ≤ earlier → earlier < total →
    ¬ Converged near kbest time earlier ∧ earlier < maxsamples

/-- `fcyc` ends, and what it returns is the least of its measurements. -/
theorem fcyc_measures [Zero Time] (near : Time → Time → Bool) {kbest : Nat} (positive : 0 < kbest)
    (maxsamples : Nat) (time : Nat → Time) :
    ∃ sampler total result,
      fcycLoop near maxsamples time (max 1 maxsamples) (.init kbest) = some sampler ∧
      sampler.Measures near kbest maxsamples time total ∧
      fcyc near kbest maxsamples time = some result ∧
      IsLeast {sample | sample ∈ measured time total} result := by
  have start : (Sampler.init kbest : Sampler Time).Has (measured time 0) := Sampler.has_init kbest
  obtain ⟨last, total, runs, kept, has, after, before, stops, waits⟩ :=
    @fcycLoop_stops _ _ near maxsamples time (max 1 maxsamples) 0 _ start positive (by omega)
      (by omega)
  have counted : last.samplecount = total := by
    rw [has.count, measured, List.length_map, List.length_range]
  have best := has.best
  rw [show last.kbest = kbest from kept, counted] at best
  have some : measured time total ≠ [] := by
    simp [measured]
    omega
  obtain ⟨result, isFirst, least⟩ := best.least positive some
  rw [List.getElem?_take_of_lt after] at isFirst
  refine ⟨last, total, result, runs, ?_, by rw [fcyc, runs]; exact isFirst, least⟩
  exact ⟨best, after, by omega, stops, waits⟩

/-- The three smallest of six measurements differ by less than one in a hundred. -/
def sixTimes : Nat → Nat := fun count => [1300, 1000, 1200, 1005, 1400, 1009].getD count 2000

theorem fcyc_measures_six : ∃ sampler total result,
    fcycLoop (fun best last => 100 * last ≤ 101 * best) 20 sixTimes (max 1 20) (.init 3) =
      some sampler ∧
    sampler.Measures (fun best last => 100 * last ≤ 101 * best) 3 20 sixTimes total ∧
    fcyc (fun best last => 100 * last ≤ 101 * best) 3 20 sixTimes = some result ∧
    IsLeast {sample | sample ∈ measured sixTimes total} result :=
  fcyc_measures _ (by decide) 20 sixTimes

example : fcyc (fun best last => 100 * last ≤ 101 * best) 3 20 sixTimes = some 1000 := by decide

end OsPractices.Mdriver
