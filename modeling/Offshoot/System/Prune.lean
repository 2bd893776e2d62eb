import Offshoot.Lib.Trace
import Offshoot.Store.Prune
import Offshoot.System.Effects

/-!
# A prune removes what it reports, or nothing

Any number of threads prune the checkpoints of one branch, among threads that run any
operations, on a backend whose failed conditional writes wrote nothing.  What a prune does
to the refs is one write or none: an attempt that loses the compare-and-swap has changed
nothing, and the next one starts from a fresh read.
-/

namespace Offshoot

open Conc Maps List

namespace Pruning

variable {env : Env} {i : Nat} {b : BranchId} {opts : PruneOptions}
  {past : List (Taken World Oracle)}

def Unmoved (i : Nat) (past : List (Taken World Oracle)) : Prop :=
  ∀ x ∈ past, x.thread = i → x.after.refs = x.before.refs

theorem Unmoved.others {others : List (Taken World Oracle)} (hothers : ∀ x ∈ others, x.thread ≠ i)
    (h : Unmoved i past) : Unmoved i (others ++ past) := by
  intro x hx hi
  obtain hx | hx := mem_append.mp hx
  · exact absurd hi (hothers x hx)
  · exact h x hx hi

theorem Unmoved.cons {z : Taken World Oracle} (hz : z.after.refs = z.before.refs)
    (h : Unmoved i past) : Unmoved i (z :: past) := by
  rw [Unmoved, forall_mem_cons]
  exact ⟨fun _ => hz, h⟩

def Nothing (i : Nat) (b : BranchId) (opts : PruneOptions) (past : List (Taken World Oracle)) :
    Prop :=
  Unmoved i past ∧ ∃ x ∈ past, x.thread = i ∧
    ∃ r, x.before.refs.lookup b = some r ∧ ToRemove opts r []

/-- Thread `i` has made one write, which removed `names` from the ref it found.  The ref is
written as `form` says. -/
def Removed (form : Ref → Ref) (i : Nat) (b : BranchId) (opts : PruneOptions) (names : List String)
    (past : List (Taken World Oracle)) : Prop :=
  ∃ newer z older, past = newer ++ z :: older ∧ z.thread = i ∧ Unmoved i newer ∧ Unmoved i older ∧
    ∃ r r', z.before.refs.lookup b = some r ∧ pruneRefused opts r = false ∧ ToRemove opts r names ∧
      Pruned r names r' ∧ z.after.refs = z.before.refs.insert b (form r')

def Told (form : Ref → Ref) (i : Nat) (b : BranchId) (opts : PruneOptions)
    (past : List (Taken World Oracle)) : Result PruneResult → Prop
  | .error _ => Unmoved i past
  | .ok res => res.deleted = [] ∧ Nothing i b opts past ∨ Removed form i b opts res.deleted past

section Actions

variable {A : List (Taken World Oracle) → Taken World Oracle → Prop}

theorem getRefFor_tells {e : RefEdit} {unchanged : Ref → Bool} {K : Result Ref → M Unit}
    (h : Unmoved i past) : (getRefFor i b e unchanged).Tells i A K
      (fun past r => Unmoved i past ∧ ∀ ref, r = .ok ref → ∃ x ∈ past, x.thread = i ∧
        x.before.refs.lookup b = some ref) past := by
  intro others o w hothers _
  refine ⟨(h.others hothers).cons ?_, fun ref href => ⟨_, mem_cons_self, rfl, ?_⟩⟩
  · show (ite _ _ _ : World × Result Ref).1.refs = w.refs
    split
    · rfl
    · split
      · rfl
      · split <;> rfl
  · show w.refs.lookup b = some ref
    simp only at href
    split at href
    · cases href
    · split at href
      · cases href
      · rename_i hlook
        rw [hlook, Except.ok.inj href]

theorem tryRef_settled (hset : env.settled = true) {w : World} {o : Oracle} {op : RefOp}
    {r : Ref} {etag : Option Ref} :
    w.refs.lookup b = etag ∧
        w.tryRef env o i b op r etag = (w.land i b op (some r.stored), .ok ()) ∨
      ∃ e, w.tryRef env o i b op r etag = (w, .error e) := by
  by_cases hit : w.refs.lookup b = etag ∧ (!o.fail) = true
  · exact .inl ⟨hit.1, if_pos hit⟩
  · refine .inr ⟨casErr env o, (if_neg hit).trans ?_⟩
    rw [if_pos hset]

theorem putRef_tells (hset : env.settled = true) {op : RefOp} {r : Ref} {etag : Option Ref}
    {K : Result Unit → M Unit} (h : Unmoved i past) : (putRef env i b op r etag).Tells i A K
      (fun past res => (∀ e, res = .error e → Unmoved i past) ∧ (res = .ok () → ∃ z older,
        past = z :: older ∧ z.thread = i ∧ Unmoved i older ∧ z.before.refs.lookup b = etag ∧
        z.after.refs = z.before.refs.insert b r.stored)) past := by
  intro others o w hothers _
  have hpast := h.others hothers
  show (∀ e, (w.tryRef env o i b op r etag).2 = .error e → _) ∧
    ((w.tryRef env o i b op r etag).2 = .ok () → _)
  obtain ⟨hit, htry⟩ | ⟨e, htry⟩ := @tryRef_settled env i b hset w o op r etag
  · have hrefs : (w.tryRef env o i b op r etag).1.refs = w.refs.insert b r.stored := by
      rw [htry]
      rfl
    rw [htry]
    exact ⟨by simp, fun _ => ⟨_, _, rfl, rfl, hpast, hit, hrefs⟩⟩
  · have hrefs : (w.tryRef env o i b op r etag).1.refs = w.refs := by rw [htry]
    rw [htry]
    exact ⟨fun _ _ => hpast.cons hrefs, by simp⟩

theorem pruneLoop_tells (hset : env.settled = true) {n : Nat} {K : Result PruneResult → M Unit}
    (h : Unmoved i past) :
    (pruneLoop env i b opts n).Tells i A K (Told Ref.stored i b opts) past := by
  induction n generalizing past with
  | zero => exact h
  | succ n ih =>
    refine .bind (getRefFor_tells h) fun r past hr => ?_
    obtain ⟨hpast, hread⟩ := hr
    cases r with
    | error e => exact hpast
    | ok ref =>
      obtain ⟨x, hx, hi, hlook⟩ := hread ref rfl
      dsimp only
      split
      · exact hpast
      rename_i hrefused
      split
      · exact hpast
      · rename_i hdrop
        exact .inl ⟨rfl, hpast, x, hx, hi, ref, hlook, toRemove_of_pruneDrop hdrop⟩
      · rename_i drop _ hdrop
        refine .bind (putRef_tells hset hpast) fun res past hres => ?_
        obtain ⟨hfailed, hlanded⟩ := hres
        split
        · obtain ⟨z, older, rfl, hz, hunmoved, hbefore, hafter⟩ := hlanded rfl
          have hmem (m : String) : m ∈ drop.insertionSort (· ≤ ·) ↔ m ∈ drop :=
            (perm_insertionSort _ drop).mem_iff
          exact .inr ⟨[], z, older, rfl, hz, by simp [Unmoved], hunmoved, ref, _, hbefore,
            Bool.eq_false_iff.mpr hrefused, (toRemove_of_pruneDrop hdrop).congr hmem,
            pruned_dropCheckpoints hmem, hafter⟩
        · exact ih (hfailed _ rfl)
        · exact hfailed _ rfl

end Actions

/-! ## Whole runs -/

def outcome : Result PruneResult → Outcome
  | .ok res => .pruned res.deleted
  | .error _ => .failed

def reported (i : Nat) (b : BranchId) (r : Result PruneResult) (w : World) : World :=
  w.note (.returned i b (outcome r))

/-- Threads that run operations, and threads that prune the checkpoints of `b`. -/
def pruning (env : Env) (b : BranchId) (opts : PruneOptions) (attempts : Nat) :
    System World Oracle (Option Op) where
  prog i op := op.elim
    (pruneCheckpoints env i b opts attempts >>= Prog.returning (reported i b)) (Op.prog env i)
  enabled _ := True
  crash i w := w.setFlight i none

instance {attempts : Nat} : DecidablePred (pruning env b opts attempts).enabled :=
  fun _ => isTrue trivial

/-- Nothing is on its way to the store, and every ref is as a read of it gives it. -/
structure Quiet (w : World) : Prop where
  pending : w.pending = []
  stored : ∀ b r, w.refs.lookup b = some r → r.stored = r

theorem Quiet.of_eq {w w' : World} (h : Quiet w) (hpending : w'.pending = w.pending)
    (hrefs : w'.refs = w.refs) : Quiet w' :=
  ⟨hpending.trans h.pending, fun b r hr => h.stored b r (hrefs ▸ hr)⟩

theorem Quiet.land {w : World} {op : RefOp} {after : Option Ref} (h : Quiet w)
    (happly : op.apply (w.refs.lookup b) = some after) : Quiet (w.land i b op after) := by
  refine ⟨h.pending, fun b' r hr => ?_⟩
  rw [World.lookup_land] at hr
  split at hr
  · subst hr
    exact RefOp.apply_stored happly
  · exact h.stored b' r hr

theorem Quiet.run (hset : env.settled = true) {w : World} {a : Act} (h : Quiet w)
    (hok : a.ok env i w) : Quiet (a.run i w) := by
  cases a with
  | write b op after => exact h.land hok.1
  | grant b op after lease => exact (h.land (i := i) hok.1).of_eq rfl rfl
  | send _ _ _ _ | sendDelete _ => exact absurd hok.1 (by simp [hset])
  | sendPut k obj createOnly => exact absurd hok (by simp [Act.ok, hset])
  | sendStones before after => exact absurd hok (by simp [Act.ok, hset])
  | late n =>
    rw [Act.run, World.landLate, h.pending]
    exact h
  | _ => exact h.of_eq rfl rfl

theorem prog_does (op : Op) : Does env i (fun _ => True) (op.prog env i) := by
  by_cases hland : ∃ n, op = .land n
  · obtain ⟨n, rfl⟩ := hland
    exact .step fun _ _ => ⟨.late n, trivial, trivial, rfl⟩
  · exact (op.prog_within fun n hn => hland ⟨n, hn⟩).mono fun _ _ => trivial

variable {attempts : Nat} {w₀ : World} {c : Config World Oracle (Option Op)}

theorem pruning_does (i : Nat) (op : Option Op) :
    Does env i (fun _ => True) ((pruning env b opts attempts).prog i op) := by
  cases op with
  | some op => exact prog_does op
  | none =>
    have hcall : Does env i (Act.Edits fun _ _ => True) (pruneCheckpoints env i b opts attempts) :=
      pruneCheckpoints_edits trivial
    refine .bind (hcall.mono fun _ _ => trivial) fun r => ?_
    exact ⟨fun o w => ⟨.note (.returned i b (outcome r)), trivial, trivial, rfl⟩, fun _ => trivial⟩

theorem quiet_of_traced (hset : env.settled = true) (hstart : Quiet w₀)
    (h : Traced (pruning env b opts attempts) (.init w₀) past c) : ∀ x ∈ past, Quiet x.before := by
  have hprog (i : Nat) (op : Option Op) : ((pruning env b opts attempts).prog i op).All
      fun w w' => Quiet w → Quiet w' := by
    have hdoes : Does env i (fun _ => True) ((pruning env b opts attempts).prog i op) :=
      pruning_does i op
    refine Prog.All.mono (fun w w' hchange hq => ?_) hdoes
    obtain ⟨a, -, hok, rfl⟩ := hchange
    exact hq.run hset hok
  have hkeeps := h.keeps (fun i op _ => hprog i op) (fun _ _ _ hi => by cases hi)
    (fun _ _ hR => hR) (fun _ _ hq => hq.of_eq rfl rfl) hstart
  exact fun x hx => (hkeeps.2.1 x hx).1

theorem pruneCheckpoints_tells {A : List (Taken World Oracle) → Taken World Oracle → Prop}
    (hset : env.settled = true) {K : Result PruneResult → M Unit} (h : Unmoved i past) :
    (pruneCheckpoints env i b opts attempts).Tells i A K (Told Ref.stored i b opts) past := by
  rw [pruneCheckpoints]
  split
  · exact pruneLoop_tells hset h
  · exact h

theorem Removed.plain {names : List String} (h : Removed Ref.stored i b opts names past)
    (hquiet : ∀ x ∈ past, Quiet x.before) : Removed id i b opts names past := by
  obtain ⟨newer, z, older, rfl, hz, hnewer, holder, r, r', hr, hrefused, hremove, hpruned,
    hafter⟩ := h
  refine ⟨newer, z, older, rfl, hz, hnewer, holder, r, r', hr, hrefused, hremove, hpruned, ?_⟩
  rw [hafter, hpruned.stored ((hquiet z (by simp)).stored b r hr), id]

theorem Removed.others {form : Ref → Ref} {names : List String} {others : List (Taken World Oracle)}
    (hothers : ∀ x ∈ others, x.thread ≠ i) (h : Removed form i b opts names past) :
    Removed form i b opts names (others ++ past) := by
  obtain ⟨newer, z, older, rfl, hz, hnewer, hrest⟩ := h
  exact ⟨others ++ newer, z, older, by simp, hz, hnewer.others hothers, hrest⟩

theorem Nothing.others {others : List (Taken World Oracle)} (hothers : ∀ x ∈ others, x.thread ≠ i)
    (h : Nothing i b opts past) : Nothing i b opts (others ++ past) := by
  obtain ⟨hunmoved, x, hx, hfound⟩ := h
  exact ⟨hunmoved.others hothers, x, mem_append_right _ hx, hfound⟩

/-- **A prune is exact.**  One that fails has changed no ref.  One that succeeds found nothing
to remove, or made one write, which changed only the checkpoints of the ref it found there and
removed from them the names it reports: those it was given, or those outside the newest.  It
does not succeed if a name it was given is on no ref it finds.  Checkpoints are ranked by a
strict total order. -/
theorem prune_exact (hsettled : env.settled = true) (hstart : Quiet w₀) {y : Taken World Oracle}
    {r : Result PruneResult} {q : M Unit}
    (hrun : Traced (pruning env b opts attempts) (.init w₀) (y :: past) c)
    (hcall : c.threads y.thread = some (none, q))
    (hreturns : y.prog = Prog.returning (reported y.thread b) r) :
    (∀ e, r = .error e → Unmoved y.thread past) ∧
    (∀ res, r = .ok res → res.deleted = [] ∧ Nothing y.thread b opts past ∨
      Removed id y.thread b opts res.deleted past) ∧
    (opts.keep = none → (∃ n ∈ opts.names, ∀ x ∈ past, x.thread = y.thread →
      ∀ ref, x.before.refs.lookup b = some ref → ref.checkpoints.lookup n = none) →
        ∃ e, r = .error e) ∧
    (∀ p, ranksBefore p p = false) ∧
    (∀ p p' p'', ranksBefore p p' = true → ranksBefore p' p'' = true → ranksBefore p p'' = true) ∧
    ∀ p p' : String × Checkpoint, p.1 ≠ p'.1 → ranksBefore p p' = true ∨
    ranksBefore p' p = true := by
  have hquiet := quiet_of_traced hsettled hstart hrun
  have htells := hrun.returned (A := fun _ _ => True) (Q := Told Ref.stored y.thread b opts) rfl rfl
    (fun past hfresh => pruneCheckpoints_tells hsettled fun x hx hi => absurd hi (hfresh x hx))
    (fun _ _ _ _ _ => trivial) hreturns hcall
  obtain ⟨others, older, rfl, hothers, htold⟩ := htells
  have hok (res : PruneResult) (hres : r = .ok res) :
      res.deleted = [] ∧ Nothing y.thread b opts (others ++ older) ∨
        Removed id y.thread b opts res.deleted (others ++ older) := by
    subst hres
    obtain ⟨hnone, hnothing⟩ | hremoved := htold
    · exact .inl ⟨hnone, hnothing.others hothers⟩
    · exact .inr ((hremoved.others hothers).plain fun x hx => hquiet x (mem_cons_of_mem y hx))
  refine ⟨fun e he => ?_, hok, fun hkeep habsent => ?_,
    fun p => Bool.eq_false_iff.mpr (ranksBefore_irrefl p),
    fun _ _ _ => ranksBefore_trans, fun _ _ => ranksBefore_total⟩
  · subst he
    exact Unmoved.others hothers htold
  · obtain ⟨n, hn, habsent⟩ := habsent
    cases r with
    | error e => exact ⟨e, rfl⟩
    | ok res =>
      -- Both ways a prune succeeds it has found the ref with all names it was given.
      obtain ⟨x, hx, hi, ref, href, names, hremove⟩ : ∃ x ∈ others ++ older, x.thread = y.thread ∧
          ∃ ref, x.before.refs.lookup b = some ref ∧ ∃ names, ToRemove opts ref names := by
        obtain ⟨-, -, x, hx, hi, ref, href, hremove⟩ |
          ⟨newer, z, older', hsplit, hz, -, -, ref, -, href, -, hremove, -⟩ := hok res rfl
        · exact ⟨x, hx, hi, ref, href, [], hremove⟩
        · exact ⟨z, by simp [hsplit], hz, ref, href, _, hremove⟩
      have hthere := (hremove.listed hkeep).1 n hn
      rw [habsent x hx hi ref href] at hthere
      cases hthere

/-! ## A run that can be evaluated -/

def branch : BranchId := ⟨"db", "main"⟩

def sampleRef : Ref :=
  { lineage := 0, epoch := 1, headTXID := 2, headEpoch := 1
    checkpoints := (AList.insert "a" ⟨1, 1, 7⟩ ∅).insert "b" ⟨2, 1, 7⟩
    isProtected := false, leaseHolder := none, leaseExpiry := none, ttl := none, touchedAt := none
    reaping := false, deleting := false, deletingAt := none, metadata := ∅, base := none }

def sample : World := World.empty.setRef branch (some sampleRef)

theorem quiet_sample : Quiet sample := by
  refine ⟨rfl, fun b r hr => ?_⟩
  rw [sample, World.lookup_setRef] at hr
  split at hr
  · cases hr
    decide
  · cases hr

def ended (c : Config World Oracle (Option Op)) : Bool :=
  match c.threads 0 with
  | some (none, .ret ()) => true
  | _ => false

theorem threads_of_ended {c : Config World Oracle (Option Op)} (h : ended c = true) :
    c.threads 0 = some (none, .ret ()) := by
  unfold ended at h
  split at h
  · assumption
  · cases h

theorem prune_exact_keep_one : ∃ past y c res,
    Traced (pruning .localDir branch ⟨[], some 1, false⟩ 1) (.init sample) (y :: past) c ∧
    y.prog = Prog.returning (reported y.thread branch) (.ok res) ∧ res.deleted = ["a"] ∧
    Removed id y.thread branch ⟨[], some 1, false⟩ res.deleted past := by
  have hplay : ((Config.init sample).playTested (pruning .localDir branch ⟨[], some 1, false⟩ 1)
      (fun _ => true) [.start 0 none, .run 0 .fine 2]).any fun c => (c.runs 0 .fine 1).any fun c' =>
        ended c' && decide (c'.state.log.head? = some (.returned 0 branch (.pruned ["a"]))) := by
    decide +kernel
  obtain ⟨c, hc, hnext⟩ := (Option.any_eq_true _ _).mp hplay
  obtain ⟨c', hc', hnext⟩ := (Option.any_eq_true _ _).mp hnext
  rw [Bool.and_eq_true, decide_eq_true_eq] at hnext
  have hend := threads_of_ended hnext.1
  obtain ⟨past, htraced, -⟩ := Traced.start.playTested (by simp) hc
  obtain ⟨y, r, hrun, hy, hprog, -, hstate⟩ := htraced.hands_over rfl rfl hc' hend
  rw [← hy] at hend
  have hexact := prune_exact rfl quiet_sample hrun hend (hy ▸ hprog)
  have hout : outcome r = .pruned ["a"] := by
    have hhead := hnext.2
    rw [hstate] at hhead
    simpa [reported, World.note] using hhead
  cases r with
  | error e => cases hout
  | ok res =>
    have hdeleted : res.deleted = ["a"] := Outcome.pruned.inj hout
    refine ⟨past, y, c', res, hrun, hy ▸ hprog, hdeleted, ?_⟩
    obtain ⟨hnone, -⟩ | hremoved := hexact.2.1 res rfl
    · rw [hdeleted] at hnone
      cases hnone
    · exact hremoved

end Pruning

end Offshoot
