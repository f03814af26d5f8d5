import UniqysKit.ChainCore.Synchronizer

/-!
# The jobs of `catchUpBodies`

`splitJobs` cuts the heights that are missing into jobs, from the last one down.  Both ends of a job
belong to it, and it is cut off at `to - maxFetchBodies`: where one job is not enough the jobs have
one height more than they may, and each shares its first height with the next one.

`splitJobs_partitions_iff` says that the jobs are a partition exactly where one job is enough.  In any
case no missing height is left out (`exists_job`), which is what the download rests on.
-/

namespace UniqysKit
namespace ChainCore

/-- The heights whose bodies a job asks for: `count` many, from the first on. -/
def Job.heights (job : Job) : List Nat := List.range' job.first job.count

/-- The heights that the jobs ask for, each as often as it is asked for. -/
def requested (jobs : List Job) : List Nat := jobs.flatMap Job.heights

/-- The jobs ask once for each height above `known` up to the target, for no other, and each job for
no more than `limit` of them. -/
structure Partitions (limit known target : Nat) (jobs : List Job) : Prop where
  once : ∀ height, known < height → height ≤ target → (requested jobs).count height = 1
  missing : ∀ height ∈ requested jobs, known < height ∧ height ≤ target
  size : ∀ job ∈ jobs, job.count ≤ limit

theorem Job.mem_heights {job : Job} {height : Nat} (h : job.first ≤ job.last) :
    height ∈ job.heights ↔ job.first ≤ height ∧ height ≤ job.last := by
  rw [Job.heights, List.mem_range'_1, Job.count]
  omega

theorem requested_cons (job : Job) (jobs : List Job) :
    requested (job :: jobs) = job.heights ++ requested jobs := List.flatMap_cons

theorem mem_requested {jobs : List Job} {height : Nat} :
    height ∈ requested jobs ↔ ∃ job ∈ jobs, height ∈ job.heights := List.mem_flatMap

section Split

variable {options : SynchronizerOptions} {known turns last : Nat}

/-- A job lies in the range that was split, and has at most one height too many. -/
theorem bounds_of_mem_splitJobs {job : Job} (h : job ∈ splitJobs options known turns last) :
    known < job.first ∧ job.first ≤ job.last ∧ job.last ≤ last ∧
      job.count ≤ options.maxFetchBodies + 1 := by
  induction turns generalizing last with
  | zero => cases h
  | succ turns ih =>
      rw [splitJobs] at h
      split at h
      · rename_i hlt
        rcases List.mem_cons.mp h with rfl | hrest
        · simp only [Job.count]
          omega
        · rcases ih hrest with ⟨hknown, hle, hlast, hcount⟩
          exact ⟨hknown, hle, by omega, hcount⟩
      · cases h

/-- No missing height is left out. -/
theorem exists_job (hmax : 1 ≤ options.maxFetchBodies) (hturns : last ≤ turns) {height : Nat}
    (hknown : known < height) (hlast : height ≤ last) :
    ∃ job ∈ splitJobs options known turns last, job.first ≤ height ∧ height ≤ job.last := by
  induction turns generalizing last with
  | zero => omega
  | succ turns ih =>
      have hlt : known < last := by omega
      rw [splitJobs, if_pos hlt]
      -- the job that is cut off has the height, or it is left for the ones after it
      by_cases hfirst : max (last - options.maxFetchBodies) (known + 1) ≤ height
      · exact ⟨_, List.mem_cons_self, hfirst, hlast⟩
      · have hrest : height ≤ last - options.maxFetchBodies := by omega
        rcases ih (by omega) hrest with ⟨job, hjob, hbounds⟩
        exact ⟨job, List.mem_cons_of_mem _ hjob, hbounds⟩

/-- Where one job is enough, there is one for the whole range. -/
theorem splitJobs_single (hturns : last ≤ turns) (hlt : known < last)
    (hle : last ≤ known + options.maxFetchBodies) :
    splitJobs options known turns last = [⟨known + 1, last⟩] := by
  cases turns with
  | zero => omega
  | succ turns =>
      have hfirst : max (last - options.maxFetchBodies) (known + 1) = known + 1 := by omega
      have hdone : ¬ known < last - options.maxFetchBodies := by omega
      rw [splitJobs, if_pos hlt, hfirst]
      cases turns with
      | zero => rfl
      | succ turns => rw [splitJobs, if_neg hdone]

theorem splitJobs_none (hle : last ≤ known) : splitJobs options known turns last = [] := by
  cases turns with
  | zero => rfl
  | succ turns => rw [splitJobs, if_neg (by omega)]

/-- Where one job is not enough, the first job of the loop has a height too many. -/
theorem splitJobs_many (hturns : last ≤ turns) (hgt : known + options.maxFetchBodies < last) :
    ∃ rest, splitJobs options known turns last =
      ⟨last - options.maxFetchBodies, last⟩ :: rest ∧
      rest = splitJobs options known (turns - 1) (last - options.maxFetchBodies) := by
  cases turns with
  | zero => omega
  | succ turns =>
      have hfirst : max (last - options.maxFetchBodies) (known + 1) =
          last - options.maxFetchBodies := by omega
      rw [splitJobs, if_pos (by omega), hfirst]
      exact ⟨_, rfl, rfl⟩

/-- The height at which two jobs meet is asked for twice. -/
theorem two_le_count_border (hmax : 1 ≤ options.maxFetchBodies) (hturns : last ≤ turns)
    (hgt : known + options.maxFetchBodies < last) :
    2 ≤ (requested (splitJobs options known turns last)).count (last - options.maxFetchBodies) := by
  rcases splitJobs_many hturns hgt with ⟨rest, hsplit, hrest⟩
  -- the first job asks for it, and the jobs after that start with it
  have hfirst : last - options.maxFetchBodies ∈
      (⟨last - options.maxFetchBodies, last⟩ : Job).heights :=
    (Job.mem_heights (Nat.sub_le _ _)).mpr ⟨le_rfl, Nat.sub_le _ _⟩
  have hsecond : last - options.maxFetchBodies ∈ requested rest := by
    obtain ⟨job, hjob, hbounds⟩ := @exists_job options known (turns - 1)
      (last - options.maxFetchBodies) hmax (by omega) (last - options.maxFetchBodies) (by omega)
      le_rfl
    rcases bounds_of_mem_splitJobs hjob with ⟨-, hle, -, -⟩
    exact mem_requested.mpr ⟨job, hrest ▸ hjob, (Job.mem_heights hle).mpr hbounds⟩
  have hpos := List.count_pos_iff.mpr hfirst
  have hpos' := List.count_pos_iff.mpr hsecond
  rw [hsplit, requested_cons, List.count_append]
  omega

end Split

/-- One job that is small enough is a partition of its range. -/
theorem partitions_single {limit known target : Nat} (hlt : known < target)
    (hle : target ≤ known + limit) : Partitions limit known target [⟨known + 1, target⟩] := by
  have hmem : ∀ height, height ∈ requested [⟨known + 1, target⟩] ↔
      known < height ∧ height ≤ target := by
    intro height
    rw [requested_cons, requested, List.flatMap_nil, List.append_nil,
      @Job.mem_heights ⟨known + 1, target⟩ _ hlt]
    rfl
  refine ⟨?_, ?_, ?_⟩
  · intro height hknown hlast
    refine List.count_eq_one_of_mem ?_ ((hmem height).mpr ⟨hknown, hlast⟩)
    rw [requested_cons, requested, List.flatMap_nil, List.append_nil]
    exact List.nodup_range'
  · intro height hheight
    exact (hmem height).mp hheight
  · intro job hjob
    rcases List.mem_singleton.mp hjob with rfl
    simp only [Job.count]
    omega

theorem partitions_nil {limit known target : Nat} (hle : target ≤ known) :
    Partitions limit known target [] := by
  refine ⟨?_, nofun, nofun⟩
  intro height hknown hlast
  omega

/-- The jobs are a partition of the missing heights exactly where one job is enough for them. -/
theorem splitJobs_partitions_iff (options : SynchronizerOptions) (known target : Nat)
    (hmax : 1 ≤ options.maxFetchBodies) :
    Partitions options.maxFetchBodies known target (splitJobs options known target target) ↔
      target ≤ known + options.maxFetchBodies := by
  constructor
  · intro h
    by_contra hgt
    have htwice := two_le_count_border hmax (le_refl target) (Nat.not_le.mp hgt)
    have honce := h.once (target - options.maxFetchBodies) (by omega) (Nat.sub_le _ _)
    omega
  · intro hle
    rcases Nat.lt_or_ge known target with hlt | hge
    · rw [splitJobs_single le_rfl hlt hle]
      exact partitions_single hlt hle
    · rw [splitJobs_none hge]
      exact partitions_nil hge

def narrowOptions : SynchronizerOptions := ⟨10, 2, 10⟩

/-- Three heights with two bodies at a time: the first job asks for all three of them, and the second
one for the first height again. -/
theorem not_partitions :
    ¬ ∀ (options : SynchronizerOptions) (known target : Nat), 1 ≤ options.maxFetchBodies →
      Partitions options.maxFetchBodies known target (splitJobs options known target target) := by
  intro h
  have hjob : (⟨1, 3⟩ : Job) ∈ splitJobs narrowOptions 0 3 3 := by decide
  have hsize : (⟨1, 3⟩ : Job).count ≤ 2 := (h narrowOptions 0 3 (by decide)).size _ hjob
  revert hsize
  decide

theorem splitJobs_partitions_sample :
    Partitions 2 1 3 (splitJobs narrowOptions 1 3 3) ∧
      ¬ Partitions 2 0 3 (splitJobs narrowOptions 0 3 3) :=
  ⟨(splitJobs_partitions_iff narrowOptions 1 3 (by decide)).mpr (by decide),
    fun h => absurd ((splitJobs_partitions_iff narrowOptions 0 3 (by decide)).mp h) (by decide)⟩

end ChainCore
end UniqysKit
