import Offshoot.Data.Checkpoint
import Offshoot.Data.Flush
import Offshoot.Data.Repoints

/-!
# Every operation respects the objects

An operation that writes no objects may take its acts in any state.  A session and
an at-rest checkpoint start with no objects under a lease of theirs, and an
operation that names a lineage is in flight throughout.
-/

namespace Offshoot

open Conc Maps

variable {env : Env} {hset : env.settled = true} {gc : Prop}
  {assumed : World → World → Prop} {w : World} {i : Nat} {b : BranchId}
  {W : BranchId → RefOp.Kind → Prop}

theorem Does.edits_free {p : M α} (hp : Does env i (Act.Edits W) p) :
    DataOk hset gc assumed i ⊤ p w :=
  hp.free fun _ h => h.tame

theorem setFlight_ok {f : Option Flight} :
    DataOk hset gc assumed i (fun _ w => w.inFlight i = f) (setFlight i f) w :=
  Spec.Holds.step (Spec.Stable.const True) trivial fun w _ _ _ _ =>
    ⟨⟨.flight f, trivial, (fun _ h => by cases h), trivial, rfl⟩, by simp [World.setFlight]⟩

theorem flying_data {p : M α}
    (hp : ∀ w, w.inFlight i = some .fork → DataOk hset gc assumed i ⊤ p w) :
    DataOk hset gc assumed i ⊤ (flying i .fork p) w :=
  setFlight_ok.bind fun _ w hw => (hp w hw).bind fun _ _ _ => setFlight_ok.mono fun _ _ _ => trivial

theorem capture_free {j : Nat} {f : Session → Session} (h : ∀ s, Captured s (f s)) :
    DataOk hset gc assumed i ⊤ (withSession j fun s => (f s, ())) w := by
  have hdoes : Does env i Act.Still (withSession j fun s => (f s, ())) :=
    .step fun _ _ => ⟨.session j _, trivial, .inr (h _), rfl⟩
  exact hdoes.free fun _ h => h.tame

theorem Op.prog_data (op : Op) (hgc : op.collects = false) (hw : w.Unused i) :
    DataOk hset gc assumed i ⊤ (op.prog env i) w := by
  cases op with
  | acquire b h ttl => exact (calling_edits (acquireLease_edits (W := ⊤) trivial)).edits_free
  | renew b l ttl => exact (calling_edits (renewLease_edits (W := ⊤) trivial)).edits_free
  | release b l => exact (calling_edits (releaseLease_edits (W := ⊤) trivial)).edits_free
  | releaseByHolder b h =>
    exact (calling_edits (releaseLeaseByHolder_edits (W := ⊤) trivial)).edits_free
  | touch b ttl t n => exact (calling_edits (touch_writes (W := ⊤) trivial).edits).edits_free
  | protect b on n => exact (calling_edits (setProtected_edits (W := ⊤) trivial)).edits_free
  | prune b opts n => exact (calling_edits (pruneCheckpoints_edits (W := ⊤) trivial)).edits_free
  | session host b ttl fuel resume script => exact session_ok hw
  | checkpoint host b name fuel opts =>
    have hnote {e : Event} (he : e.quiet) : Does env i Act.Still (note e) := note_does trivial he
    refine ((hnote (by trivial)).unused (fun _ h => h.tame) hw).bind fun _ w hw => ?_
    exact (checkpoint_ok hw).bind fun r w _ => (report_edits (W := ⊤)).edits_free
  | checkout host b fuel =>
    exact (Does.free checkoutProven_local fun _ h => h.still.tame).bind .ret
  | create db img => exact flying_data fun w hw => create_data .flight hw
  | fork host src new opts fuel =>
    exact flying_data fun w hw => (fork_data .flight hw).mono fun _ _ _ => trivial
  | rollback host b name opts fuel => exact flying_data fun w hw => rollback_data .flight hw
  | promote host db source target opts fuel =>
    exact flying_data fun w hw => promote_data .flight hw
  | compact host b force fuel => exact flying_data fun w hw => compact_data .flight hw
  | destroy host b force =>
    exact (Does.free (destroy_calm (W := ⊤) fun _ _ => trivial) fun _ h => h.tame).bind
        .ret
  | reap host => exact (reap_claims (W := ⊤) fun _ _ _ => trivial).calm.free fun _ h => h.tame
  | clearStale => exact (clearStale_writes (W := ⊤) fun _ => trivial).edits.edits_free
  | gc grace fuel => cases hgc
  | appWrite host b img =>
    have hdoes : Does env i Act.Local (setCheckout host b fun c => { c with file := some img }) :=
      setCheckout_does fun _ => trivial
    exact hdoes.free fun _ h => h.still.tame
  | captureRebase s img => exact capture_free fun _ => .rebase img
  | captureApply s txn => exact capture_free fun _ => .apply txn
  | captureStop s => exact capture_free fun _ => .stop
  | tick n =>
    have hdoes : Does env i Act.Still (Offshoot.tick n) :=
      .step fun _ _ => ⟨.clock n, trivial, trivial, rfl⟩
    exact hdoes.free fun _ h => h.tame
  | land n =>
    have hdoes : Does env i Act.Still (landLate n) :=
      .step fun _ _ => ⟨.late n, trivial, trivial, rfl⟩
    exact hdoes.free fun _ h => h.tame

theorem dataLayer_crash : (dataLayer env hset gc assumed).may i w (w.setFlight i none) :=
  ⟨.flight none, trivial, (fun _ h => by cases h), trivial, rfl⟩

/-- Without collections, every operation respects the objects. -/
theorem dataLayer_sound {enabled : Op → Prop} (hgc : ∀ op, enabled op → op.collects = false) :
    (dataLayer env hset gc assumed).spec.Sound (system env enabled) :=
  Layer.sound_of_may (fun _ _ _ h => by
      obtain ⟨a, hok, hname, -, hrun⟩ := h
      exact ⟨a, hok, hname, hrun⟩)
    (fun _ op _ hop _ hfresh => op.prog_data (hgc op hop) hfresh.2) fun _ _ _ => dataLayer_crash

theorem DataInv.empty : DataInv .empty := ⟨.empty, .empty⟩

theorem World.Unused.empty : World.empty.Unused i := by
  intro k l e t hk
  simp [World.Has, World.empty] at hk

theorem dataLayer_init : Safe (dataLayer env hset gc assumed).spec
    (.init .empty : Config World Oracle Op) :=
  Safe.init ⟨.empty env, .empty⟩ fun _ => ⟨trivial, .empty⟩

end Offshoot
