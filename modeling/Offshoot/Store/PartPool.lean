import Mathlib.Algebra.BigOperators.Fin
import Mathlib.Logic.Relation
import Offshoot.Store.Multipart

/-!
# Uploading the parts of an object at once

`concurrentPartUpload` of `internal/store/s3_multipart.go` as a step relation: a producer hands
out part numbers over an unbuffered channel, workers upload them and write the answers at
their own index, and the first failure stops the producer.  An upload may end in any way at
any time, and the context given by the caller may end as well.
-/

namespace Offshoot.Multipart

open List

/-- An entry of the list that completes the upload.  The zero value has no number. -/
structure CompletedPart (ρ : Type) where
  partNumber : Option Int
  answer : Option ρ

def CompletedPart.zero {ρ : Type} : CompletedPart ρ := ⟨none, none⟩

def completedPart {ρ : Type} (partNum : Int) (answer : ρ) : CompletedPart ρ :=
  ⟨some partNum, some answer⟩

abbrev Request := Part × Int

def poolSize (concurrency numParts : Int) : Int :=
  let workers := if concurrency < 1 then 1 else concurrency
  -- The comparison is made on the value as an `int32`.
  if numParts < workers.bmod (2 ^ 32) then numParts else workers

inductive Worker
  | idle
  | uploading (partNum : Nat) (request : Request)
  /-- Is inside `firstErrOnce`, before `cancel`. -/
  | cancelling
  | exited

structure Pool (ε ρ : Type) (w : Nat) where
  partNum : Nat
  closed : Bool
  workers : Fin w → Worker
  parts : List (CompletedPart ρ)
  firstErr : Option ε
  canceled : Bool
  ctxErr : Option ε
  answers : List (Request × ρ)
  returned : Option (Except ε (List (CompletedPart ρ)))

namespace Pool

variable {ε ρ : Type} {w : Nat}

def init (w numParts : Nat) : Pool ε ρ w where
  partNum := 1
  closed := false
  workers := fun _ => .idle
  parts := List.replicate numParts .zero
  firstErr := none
  canceled := false
  ctxErr := none
  answers := []
  returned := none

def setWorker (s : Pool ε ρ w) (i : Fin w) (v : Worker) : Pool ε ρ w :=
  { s with workers := Function.update s.workers i v }

/-- `parts[partNum-1] = completedPart(partNum, ...)`. -/
def record (s : Pool ε ρ w) (partNum : Nat) (request : Request) (answer : ρ) : Pool ε ρ w :=
  { s with
    parts := s.parts.set (partNum - 1) (completedPart partNum answer)
    answers := (request, answer) :: s.answers }

def result (s : Pool ε ρ w) : Except ε (List (CompletedPart ρ)) :=
  match s.firstErr, s.ctxErr with
  | some e, _ => .error e
  | none, some e => .error e
  | none, none => .ok s.parts

inductive Act (job : Nat → Option Request) (numParts : Nat) (s : Pool ε ρ w) : Pool ε ρ w → Prop
  | hand (i : Fin w) (request : Request) (hopen : s.closed = false) (hle : s.partNum ≤ numParts)
      (hi : s.workers i = .idle) (hjob : job s.partNum = some request) :
      Act job numParts s
        { s.setWorker i (.uploading s.partNum request) with partNum := s.partNum + 1 }
  | stop (hopen : s.closed = false) (hle : s.partNum ≤ numParts)
      (hdone : s.canceled = true ∨ s.ctxErr ≠ none) : Act job numParts s { s with closed := true }
  | finish (hopen : s.closed = false) (hend : numParts < s.partNum) :
      Act job numParts s { s with closed := true }
  | succeed (i : Fin w) (partNum : Nat) (request : Request) (answer : ρ)
      (hi : s.workers i = .uploading partNum request) :
      Act job numParts s ((s.record partNum request answer).setWorker i .idle)
  | fail (i : Fin w) (partNum : Nat) (request : Request) (e : ε)
      (hi : s.workers i = .uploading partNum request) (hfirst : s.firstErr = none) :
      Act job numParts s { s.setWorker i .cancelling with firstErr := some e }
  | cancel (i : Fin w) (hi : s.workers i = .cancelling) :
      Act job numParts s { s.setWorker i .idle with canceled := true }
  -- A later failure passes `firstErrOnce` when the first one has.
  | failAgain (i : Fin w) (partNum : Nat) (request : Request)
      (hi : s.workers i = .uploading partNum request) (honce : s.canceled = true) :
      Act job numParts s (s.setWorker i .idle)
  | exit (i : Fin w) (hi : s.workers i = .idle) (hclosed : s.closed = true) :
      Act job numParts s (s.setWorker i .exited)
  | wait (hall : ∀ i, s.workers i = .exited) (hnot : s.returned = none) :
      Act job numParts s { s with returned := some s.result }

/-- A step of the upload, or the end of the caller's context. -/
inductive Step (job : Nat → Option Request) (numParts : Nat) (s : Pool ε ρ w) :
    Pool ε ρ w → Prop
  | act {s' : Pool ε ρ w} (h : Act job numParts s s') : Step job numParts s s'
  | interrupt (e : ε) (hnot : s.ctxErr = none) : Step job numParts s { s with ctxErr := some e }

def Reach (job : Nat → Option Request) (numParts : Nat) (s : Pool ε ρ w) : Prop :=
  Relation.ReflTransGen (Step job numParts) (init w numParts) s

/-! ## The list that is returned -/

def Filled (job : Nat → Option Request) (answers : List (Request × ρ))
    (parts : List (CompletedPart ρ)) (i : Nat) : Prop :=
  ∃ request answer, job (i + 1) = some request ∧ (request, answer) ∈ answers ∧
    parts[i]? = some (completedPart (i + 1 : Nat) answer)

variable {job : Nat → Option Request} {numParts : Nat} {s s' : Pool ε ρ w}

theorem Filled.mono {answers answers' : List (Request × ρ)} {parts : List (CompletedPart ρ)}
    {i : Nat} (h : Filled job answers parts i) (hsub : answers ⊆ answers') :
    Filled job answers' parts i := by
  obtain ⟨request, answer, hjob, hmem, hpart⟩ := h
  exact ⟨request, answer, hjob, hsub hmem, hpart⟩

theorem Filled.record {partNum i : Nat} {request : Request} {answer : ρ}
    (hpos : 1 ≤ partNum) (hlt : partNum - 1 < s.parts.length) (hjob : job partNum = some request)
    (h : i + 1 ≠ partNum → Filled job s.answers s.parts i) :
    Filled job (s.record partNum request answer).answers
      (s.record partNum request answer).parts i := by
  by_cases hi : i + 1 = partNum
  · subst hi
    refine ⟨request, answer, hjob, mem_cons_self, ?_⟩
    exact List.getElem?_set_self hlt
  · obtain ⟨request', answer', hjob', hmem, hpart⟩ := h hi
    refine ⟨request', answer', hjob', mem_cons_of_mem _ hmem, ?_⟩
    rw [← hpart]
    exact List.getElem?_set_ne (by omega)

structure Inv (job : Nat → Option Request) (numParts : Nat) (s : Pool ε ρ w) : Prop where
  next : 1 ≤ s.partNum ∧ s.partNum ≤ numParts + 1
  length : s.parts.length = numParts
  /-- Without a failure a part that was handed out is in the list or on its way. -/
  handed : s.firstErr = none → ∀ i, i + 1 < s.partNum → Filled job s.answers s.parts i ∨
    ∃ j request, s.workers j = .uploading (i + 1) request
  uploading : ∀ j partNum request, s.workers j = .uploading partNum request →
    1 ≤ partNum ∧ partNum < s.partNum ∧ job partNum = some request
  closed : s.closed = true → s.partNum = numParts + 1 ∨ s.firstErr ≠ none ∨ s.ctxErr ≠ none
  canceled : s.canceled = true → s.firstErr ≠ none
  cancelling : ∀ j, s.workers j = .cancelling → s.firstErr ≠ none
  once : s.firstErr ≠ none → s.canceled = true ∨ ∃ j, s.workers j = .cancelling
  exited : ∀ j, s.workers j = .exited → s.closed = true
  returned : ∀ parts, s.returned = some (.ok parts) → parts.length = numParts ∧
    ∀ i < numParts, Filled job s.answers parts i

theorem Inv.init : Inv job numParts (init w numParts : Pool ε ρ w) where
  next := ⟨Nat.le_refl 1, Nat.le_add_left 1 numParts⟩
  length := length_replicate
  handed := fun _ i h => absurd h (Nat.not_lt.mpr (Nat.le_add_left 1 i))
  uploading := fun _ _ _ h => by cases h
  closed := fun h => by cases h
  canceled := fun h => by cases h
  cancelling := fun _ h => by cases h
  once := fun h => absurd rfl h
  exited := fun _ h => by cases h
  returned := fun _ h => by cases h

theorem setWorker_self {i : Fin w} {v : Worker} : (s.setWorker i v).workers i = v :=
  Function.update_self ..

theorem setWorker_of_ne {i j : Fin w} {v : Worker} (h : j ≠ i) :
    (s.setWorker i v).workers j = s.workers j := Function.update_of_ne h ..

theorem setWorker_eq {i j : Fin w} {v u : Worker} (h : (s.setWorker i v).workers j = u) :
    v = u ∨ s.workers j = u := by
  by_cases hj : j = i
  · subst hj
    rw [setWorker_self] at h
    exact .inl h
  · rw [setWorker_of_ne hj] at h
    exact .inr h

theorem setWorker_keeps {i j : Fin w} {v u x : Worker} (hj : s.workers j = u) (hi : s.workers i = x)
    (hne : u ≠ x) : (s.setWorker i v).workers j = u := by
  rw [setWorker_of_ne, hj]
  rintro rfl
  exact hne (hj.symm.trans hi)

theorem result_ok {parts : List (CompletedPart ρ)} (h : s.result = .ok parts) :
    s.firstErr = none ∧ s.ctxErr = none ∧ s.parts = parts := by
  rw [result] at h
  split at h
  · cases h
  · cases h
  · exact ⟨by assumption, by assumption, Except.ok.inj h⟩

theorem Inv.move_uploading (h : Inv job numParts s) {i : Fin w} {v : Worker}
    (hv : ∀ partNum request, v ≠ .uploading partNum request) (j : Fin w) (partNum : Nat)
    (request : Request) (hj : (s.setWorker i v).workers j = .uploading partNum request) :
    1 ≤ partNum ∧ partNum < s.partNum ∧ job partNum = some request := by
  obtain hself | hother := setWorker_eq hj
  · exact absurd hself (hv _ _)
  · exact h.uploading _ _ _ hother

theorem Inv.move_exited (h : Inv job numParts s) {i : Fin w} {v : Worker} (hv : v ≠ .exited)
    (j : Fin w) (hj : (s.setWorker i v).workers j = .exited) : s.closed = true := by
  obtain hself | hother := setWorker_eq hj
  · exact absurd hself hv
  · exact h.exited _ hother

theorem Inv.move_cancelling (h : Inv job numParts s) {i : Fin w} {v : Worker} (hv : v ≠ .cancelling)
    (j : Fin w) (hj : (s.setWorker i v).workers j = .cancelling) : s.firstErr ≠ none := by
  obtain hself | hother := setWorker_eq hj
  · exact absurd hself hv
  · exact h.cancelling _ hother

theorem Inv.move_once (h : Inv job numParts s) {i : Fin w} {v : Worker}
    (hi : s.workers i ≠ .cancelling) (hfirst : s.firstErr ≠ none) :
    s.canceled = true ∨ ∃ j, (s.setWorker i v).workers j = .cancelling := by
  refine (h.once hfirst).imp_right fun hj => ?_
  obtain ⟨j, hj⟩ := hj
  exact ⟨j, setWorker_keeps hj rfl hi.symm⟩

theorem Inv.wait (hw : 0 < w) (h : Inv job numParts s) (hall : ∀ i, s.workers i = .exited)
    {parts : List (CompletedPart ρ)} (hres : s.result = .ok parts) :
    parts.length = numParts ∧ ∀ i < numParts, Filled job s.answers parts i := by
  obtain ⟨hfirst, hctx, rfl⟩ := result_ok hres
  refine ⟨h.length, fun k hk => ?_⟩
  have hlast : s.partNum = numParts + 1 := by
    obtain hlast | herr | herr := h.closed (h.exited ⟨0, hw⟩ (hall _))
    · exact hlast
    · exact absurd hfirst herr
    · exact absurd hctx herr
  obtain hfilled | ⟨j, request, hj⟩ := h.handed hfirst k (by omega)
  · exact hfilled
  · rw [hall j] at hj
    cases hj

theorem Inv.act (hw : 0 < w) (h : Inv job numParts s) (hact : Act job numParts s s') :
    Inv job numParts s' := by
  cases hact with
  | hand i request hopen hle hi hjob =>
    have hidle : s.workers i ≠ .cancelling := by
      rw [hi]
      simp
    refine { h with
      next := ⟨Nat.le_add_left 1 _, Nat.succ_le_succ hle⟩
      handed := ?_
      uploading := ?_
      closed := fun hclosed => absurd (hopen.symm.trans hclosed) Bool.false_ne_true
      cancelling := h.move_cancelling (by simp)
      once := h.move_once hidle
      exited := h.move_exited (by simp) }
    · intro hfirst k hk
      obtain hlt | heq := Nat.lt_succ_iff_lt_or_eq.mp hk
      · refine (h.handed hfirst k hlt).imp_right fun hj => ?_
        obtain ⟨j, request', hj⟩ := hj
        exact ⟨j, request', setWorker_keeps hj hi (by simp)⟩
      · refine .inr ⟨i, request, ?_⟩
        rw [heq]
        exact setWorker_self
    · intro j partNum request' hj
      obtain hself | hother := setWorker_eq hj
      · cases hself
        exact ⟨h.next.1, Nat.lt_succ_self _, hjob⟩
      · obtain ⟨hpos, hlt, hjob'⟩ := h.uploading _ _ _ hother
        exact ⟨hpos, Nat.lt_succ_of_lt hlt, hjob'⟩
  | stop hopen hle hdone =>
    refine { h with closed := fun _ => .inr ?_, exited := fun _ _ => rfl }
    exact hdone.imp h.canceled id
  | finish hopen hend =>
    have hlast : s.partNum = numParts + 1 := le_antisymm h.next.2 hend
    exact { h with closed := fun _ => .inl hlast, exited := fun _ _ => rfl }
  | succeed i partNum request answer hi =>
    obtain ⟨hpos, hlt, hjob⟩ := h.uploading _ _ _ hi
    have hnext := h.next
    have hbound : partNum - 1 < s.parts.length := by
      rw [h.length]
      omega
    have hbusy : s.workers i ≠ .cancelling := by
      rw [hi]
      simp
    refine { h with
      length := length_set.trans h.length
      handed := ?_
      uploading := h.move_uploading (by simp)
      cancelling := h.move_cancelling (by simp)
      once := h.move_once hbusy
      exited := h.move_exited (by simp)
      returned := ?_ }
    · intro hfirst k hk
      by_cases hself : k + 1 = partNum
      · exact .inl (Filled.record hpos hbound hjob fun hne => absurd hself hne)
      obtain hfilled | ⟨j, request', hj⟩ := h.handed hfirst k hk
      · exact .inl (Filled.record hpos hbound hjob fun _ => hfilled)
      · refine .inr ⟨j, request', setWorker_keeps hj hi fun hne => hself ?_⟩
        cases hne
        rfl
    · intro parts hparts
      obtain ⟨hlen, hfilled⟩ := h.returned parts hparts
      exact ⟨hlen, fun k hk => (hfilled k hk).mono (subset_cons_self ..)⟩
  | fail i partNum request e hi hfirst =>
    exact { h with
      handed := by simp
      uploading := h.move_uploading (by simp)
      closed := fun _ => .inr (.inl (Option.some_ne_none e))
      canceled := fun _ => Option.some_ne_none e
      cancelling := fun _ _ => Option.some_ne_none e
      once := fun _ => .inr ⟨i, setWorker_self⟩
      exited := h.move_exited (by simp) }
  | cancel i hi =>
    have hfirst := h.cancelling i hi
    exact { h with
      handed := fun hnone => absurd hnone hfirst
      uploading := h.move_uploading (by simp)
      canceled := fun _ => hfirst
      cancelling := fun _ _ => hfirst
      once := fun _ => .inl rfl
      exited := h.move_exited (by simp) }
  | failAgain i partNum request hi honce =>
    have hfirst := h.canceled honce
    exact { h with
      handed := fun hnone => absurd hnone hfirst
      uploading := h.move_uploading (by simp)
      cancelling := fun _ _ => hfirst
      once := fun _ => .inl honce
      exited := h.move_exited (by simp) }
  | exit i hi hclosed =>
    have hidle : s.workers i ≠ .cancelling := by
      rw [hi]
      simp
    refine { h with
      handed := ?_
      uploading := h.move_uploading (by simp)
      cancelling := h.move_cancelling (by simp)
      once := h.move_once hidle
      exited := fun _ _ => hclosed }
    intro hfirst k hk
    refine (h.handed hfirst k hk).imp_right fun hj => ?_
    obtain ⟨j, request, hj⟩ := hj
    exact ⟨j, request, setWorker_keeps hj hi (by simp)⟩
  | wait hall hnot =>
    exact { h with returned := fun parts hparts => h.wait hw hall (Option.some.inj hparts) }

theorem Inv.step (hw : 0 < w) (h : Inv job numParts s) (hstep : Step job numParts s s') :
    Inv job numParts s' := by
  cases hstep with
  | act hact => exact h.act hw hact
  | interrupt e hnot =>
    exact { h with closed := fun _ => .inr (.inr (Option.some_ne_none e)) }

theorem Reach.inv (hw : 0 < w) (h : Reach job numParts s) : Inv job numParts s := by
  induction h with
  | refl => exact .init
  | tail _ hstep ih => exact ih.step hw hstep

/-! ## The upload ends -/

/-- Some step is possible until the upload returns, whatever an upload under way ends in. -/
theorem Inv.progress (hw : 0 < w) (hjob : ∀ k, 1 ≤ k → k ≤ numParts →
      ∃ request, job k = some request)
    (h : Inv job numParts s) (outcome : Except ε ρ) (hnot : s.returned = none) :
    ∃ s', Act job numParts s s' := by
  by_cases hcancelling : ∃ i, s.workers i = .cancelling
  · obtain ⟨i, hi⟩ := hcancelling
    exact ⟨_, .cancel i hi⟩
  by_cases huploading : ∃ i partNum request, s.workers i = .uploading partNum request
  · obtain ⟨i, partNum, request, hi⟩ := huploading
    cases outcome with
    | ok answer => exact ⟨_, .succeed i partNum request answer hi⟩
    | error e =>
      by_cases hfirst : s.firstErr = none
      · exact ⟨_, .fail i partNum request e hi hfirst⟩
      · exact ⟨_, .failAgain i partNum request hi ((h.once hfirst).resolve_right hcancelling)⟩
  have hrest : ∀ i, s.workers i = .idle ∨ s.workers i = .exited := by
    intro i
    cases hi : s.workers i with
    | idle => exact .inl rfl
    | uploading partNum request => exact absurd ⟨i, partNum, request, hi⟩ huploading
    | cancelling => exact absurd ⟨i, hi⟩ hcancelling
    | exited => exact .inr rfl
  by_cases hclosed : s.closed = true
  · by_cases hidle : ∃ i, s.workers i = .idle
    · obtain ⟨i, hi⟩ := hidle
      exact ⟨_, .exit i hi hclosed⟩
    · refine ⟨_, .wait (fun i => (hrest i).resolve_left fun hi => hidle ⟨i, hi⟩) hnot⟩
  · have hopen : s.closed = false := Bool.eq_false_iff.mpr hclosed
    by_cases hend : numParts < s.partNum
    · exact ⟨_, .finish hopen hend⟩
    · obtain ⟨request, hrequest⟩ := hjob s.partNum h.next.1 (Nat.not_lt.mp hend)
      have hidle := (hrest ⟨0, hw⟩).resolve_right fun hexited => hclosed (h.exited _ hexited)
      exact ⟨_, .hand ⟨0, hw⟩ request hopen (Nat.not_lt.mp hend) hidle hrequest⟩

def weight : Worker → Nat
  | .idle => 1
  | .uploading _ _ => 3
  | .cancelling => 2
  | .exited => 0

def busy (s : Pool ε ρ w) : Nat := ∑ i, weight (s.workers i)

def pending (s : Pool ε ρ w) : Nat :=
  (if s.closed then 0 else 1) + (if s.ctxErr.isSome then 0 else 1) +
    if s.returned.isSome then 0 else 1

def left (numParts : Nat) (s : Pool ε ρ w) : Nat :=
  4 * (numParts + 1 - s.partNum) + s.busy + s.pending

theorem busy_setWorker (i : Fin w) (v : Worker) :
    (s.setWorker i v).busy + weight (s.workers i) = s.busy + weight v := by
  rw [busy, busy, ← Finset.add_sum_erase _ _ (Finset.mem_univ i),
    ← Finset.add_sum_erase _ _ (Finset.mem_univ i), setWorker_self,
    Finset.sum_congr rfl fun j hj => congrArg weight (setWorker_of_ne (Finset.ne_of_mem_erase hj))]
  omega

theorem left_lt_of_move {i : Fin w} {v : Worker} (hworkers : s'.workers = (s.setWorker i v).workers)
    (hpending : s'.pending = s.pending) (hlt : 4 * (numParts + 1 - s'.partNum) + weight v <
      4 * (numParts + 1 - s.partNum) + weight (s.workers i)) :
    s'.left numParts < s.left numParts := by
  have hbusy : s'.busy + weight (s.workers i) = s.busy + weight v := by
    rw [busy, hworkers]
    exact busy_setWorker i v
  rw [left, left, hpending]
  omega

theorem Act.left_lt (hact : Act job numParts s s') : s'.left numParts < s.left numParts := by
  cases hact with
  | hand i request hopen hle hi hjob =>
    refine left_lt_of_move rfl rfl ?_
    rw [hi]
    show 4 * (numParts + 1 - (s.partNum + 1)) + 3 < 4 * (numParts + 1 - s.partNum) + 1
    omega
  | stop hopen hle hdone =>
    refine Nat.add_lt_add_left ?_ _
    simp [pending, hopen]
  | finish hopen hend =>
    refine Nat.add_lt_add_left ?_ _
    simp [pending, hopen]
  | succeed i partNum request answer hi =>
    refine left_lt_of_move rfl rfl (Nat.add_lt_add_left ?_ _)
    rw [hi]
    show 1 < 3
    omega
  | fail i partNum request e hi hfirst =>
    refine left_lt_of_move rfl rfl (Nat.add_lt_add_left ?_ _)
    rw [hi]
    show 2 < 3
    omega
  | cancel i hi =>
    refine left_lt_of_move rfl rfl (Nat.add_lt_add_left ?_ _)
    rw [hi]
    show 1 < 2
    omega
  | failAgain i partNum request hi honce =>
    refine left_lt_of_move rfl rfl (Nat.add_lt_add_left ?_ _)
    rw [hi]
    show 1 < 3
    omega
  | exit i hi hclosed =>
    refine left_lt_of_move rfl rfl (Nat.add_lt_add_left ?_ _)
    rw [hi]
    show 0 < 1
    omega
  | wait hall hnot =>
    refine Nat.add_lt_add_left ?_ _
    simp [pending, hnot]

theorem Step.left_lt (hstep : Step job numParts s s') : s'.left numParts < s.left numParts := by
  cases hstep with
  | act hact => exact hact.left_lt
  | interrupt e hnot =>
    refine Nat.add_lt_add_left ?_ _
    simp [pending, hnot]

end Pool

/-! ## Transfers of an object -/

theorem poolSize_pos {concurrency numParts : Int} (h : 1 ≤ numParts) :
    1 ≤ poolSize concurrency numParts := by
  rw [poolSize]
  split <;> split <;> omega

/-- The parts of an upload and the ranges of a copy tile the object, and an upload by any
number of workers ends in an error or with the answer for every part at its position. -/
theorem transfer_tiles {size : Int} (hpos : 1 ≤ size) (hle : size ≤ maxObjectSize) :
    ∃ parts, Covers size parts ∧ sequentialParts size = some parts ∧
      (∃ ranges, copyParts size = some ranges ∧ ranges.map CopyRange.part = parts) ∧
      ∃ partSize, partSizeFor size = some partSize ∧
        numParts size partSize = some (parts.length : Int) ∧
        ∀ base : Int, 0 ≤ base → base + size < 2 ^ 63 →
          (∀ (i : Nat) (hi : i < parts.length), poolPart base size partSize (i + 1) =
            some (parts[i], base + parts[i].offset)) ∧
          ∀ (ε ρ : Type) (concurrency : Int)
            (s : Pool ε ρ (poolSize concurrency parts.length).toNat),
            Pool.Reach (fun k => poolPart base size partSize k) parts.length s →
              (∀ list, s.returned = some (.ok list) → list.length = parts.length ∧
                ∀ i < parts.length,
                  Pool.Filled (fun k => poolPart base size partSize k) s.answers list i) ∧
              (s.returned = none → Except ε ρ → ∃ s',
                Pool.Act (fun k => poolPart base size partSize k) parts.length s s') ∧
              ∀ s', Pool.Step (fun k => poolPart base size partSize k) parts.length s s' →
                s'.left parts.length < s.left parts.length := by
  obtain ⟨size, rfl⟩ := Int.eq_ofNat_of_zero_le (show 0 ≤ size by omega)
  have h := fits (show 0 < size by omega) hle
  have hn : 1 ≤ ((plan size).length : Int) := by
    have : 0 < Tiling.count (widthFor size) size := (Tiling.lt_count_iff h.width_pos).mpr (by omega)
    rw [length_plan]
    omega
  refine ⟨plan size, plan_covers h, sequentialParts_eq h, ⟨_, copyParts_eq h, ?_⟩, widthFor size,
    partSizeFor_eq hle, ?_, ?_⟩
  · rw [map_map]
    exact (map_congr_left fun p _ => p.part_range).trans (map_id _)
  · rw [length_plan]
    exact numParts_eq h
  intro base hbase hread
  have hjob : ∀ (i : Nat) (hi : i < (plan size).length),
      poolPart base size (widthFor size) (i + 1) =
        some ((plan size)[i], base + (plan size)[i].offset) := by
    intro i hi
    have hget : (plan size)[i] = part (widthFor size) size i := by
      simp only [plan, getElem_map, getElem_range]
    rw [hget, part_offset]
    exact poolPart_eq h hbase hread (length_plan ▸ hi)
  refine ⟨hjob, fun ε ρ concurrency s hreach => ?_⟩
  have hw : 0 < (poolSize concurrency (plan size).length).toNat := by
    have : 1 ≤ poolSize concurrency (plan size).length := poolSize_pos hn
    omega
  have hinv := hreach.inv hw
  refine ⟨hinv.returned, fun hnot outcome => hinv.progress hw ?_ outcome hnot,
    fun s' hstep => hstep.left_lt⟩
  intro k hlo hhi
  obtain ⟨i, rfl⟩ : ∃ i, k = i + 1 := ⟨k - 1, by omega⟩
  exact ⟨_, hjob i hhi⟩

/-- Two workers upload two parts, of which the second is answered first. -/
theorem Pool.reach_two {job : Nat → Option Request} {first second : Request}
    (hfirst : job 1 = some first) (hsecond : job 2 = some second) :
    ∃ s : Pool Unit String 2, Pool.Reach job 2 s ∧
      s.returned = some (.ok [completedPart 1 "a", completedPart 2 "b"]) := by
  have hstart : Pool.Reach job 2 (Pool.init 2 2 : Pool Unit String 2) := .refl
  have hhanded := (hstart.tail (.act (.hand 0 first rfl (Nat.le_succ 1) rfl hfirst))).tail
    (.act (.hand 1 second rfl (Nat.le_refl 2) rfl hsecond))
  have hanswered := (hhanded.tail (.act (.succeed 1 2 second "b" rfl))).tail
    (.act (.succeed 0 1 first "a" rfl))
  have hclosed := hanswered.tail (.act (.finish rfl (Nat.lt_succ_self 2)))
  have hexited := (hclosed.tail (.act (.exit 0 rfl rfl))).tail (.act (.exit 1 rfl rfl))
  exact ⟨_, hexited.tail (.act (.wait (Fin.forall_fin_two.mpr ⟨rfl, rfl⟩) rfl)), rfl⟩

def twoParts : List Part := [⟨1, 0, defaultPartSize⟩, ⟨2, defaultPartSize, 1⟩]

/-- The largest object, with eight workers that have not started; and an object of two parts,
uploaded. -/
theorem transfer_tiles_uploaded : (∃ parts partSize, Covers maxObjectSize parts ∧
      sequentialParts maxObjectSize = some parts ∧
      numParts maxObjectSize partSize = some (parts.length : Int) ∧
      ∃ s : Pool Unit Unit (poolSize 8 parts.length).toNat,
        Pool.Act (fun k => poolPart 0 maxObjectSize partSize k) parts.length
          (Pool.init _ parts.length) s) ∧
    ∃ (s : Pool Unit String (poolSize 8 twoParts.length).toNat)
        (list : List (CompletedPart String)),
      Pool.Reach (fun k => poolPart 0 (defaultPartSize + 1) defaultPartSize k) twoParts.length s ∧
      s.returned = some (.ok list) ∧ list.length = twoParts.length ∧ ∀ i < twoParts.length,
        Pool.Filled (fun k => poolPart 0 (defaultPartSize + 1) defaultPartSize k) s.answers
          list i := by
  constructor
  · obtain ⟨parts, hcovers, hparts, _, partSize, _, hnum, hupload⟩ :=
      transfer_tiles (show 1 ≤ maxObjectSize by decide) (Int.le_refl _)
    obtain ⟨_, hpool⟩ := hupload 0 (Int.le_refl 0) (by decide)
    obtain ⟨_, hgoes, _⟩ := hpool Unit Unit 8 _ .refl
    exact ⟨parts, partSize, hcovers, hparts, hnum, hgoes rfl (.ok ())⟩
  · obtain ⟨parts, _, hparts, _, partSize, hsize, _, hupload⟩ :=
      transfer_tiles (show 1 ≤ defaultPartSize + 1 by decide) (by decide)
    obtain rfl : defaultPartSize = partSize := by
      refine Option.some.inj (Eq.trans ?_ hsize)
      decide +kernel
    obtain rfl : twoParts = parts := by
      refine Option.some.inj (Eq.trans ?_ hparts)
      decide +kernel
    obtain ⟨hjob, hpool⟩ := hupload 0 (Int.le_refl 0) (by decide)
    obtain ⟨s, hreach, hreturned⟩ := @Pool.reach_two
      (fun k => poolPart 0 (defaultPartSize + 1) defaultPartSize k) _ _
      (hjob 0 Nat.two_pos) (hjob 1 Nat.one_lt_two)
    have hfilled := (hpool Unit String 8 s hreach).1 _ hreturned
    exact ⟨s, _, hreach, hreturned, rfl, hfilled.2⟩

end Offshoot.Multipart
