import Offshoot.System.Bases

/-!
# Preparing a lineage, on any backend

What the operations that give a branch a new lineage know while they prepare it: the
ref they read has been one of its branch, the lineage they have minted is a draft,
and the base they gave it leads somewhere.  After the write that names the lineage
has failed, reading the ref as it was shows that the write had no effect then.
-/

namespace Offshoot

open Conc Maps

variable {env : Env} {assumed : World → World → Prop} {w w' : World} {i j : Nat}
  {b : BranchId} {P Q : World → Prop}

/-! ## Knowledge -/

/-- A predicate every act keeps but the naming writes of thread `i`. -/
structure Kept (env : Env) (assumed : World → World → Prop) (i : Nat) (P : World → Prop) :
    Prop where
  step : ∀ {j : Nat} {w : World} {a : Act}, RefsInv env w → a.ok env j w →
    (∀ l, a.names = some l → w.Draft j l) → (j = i → a.names = none) →
    assumed w (a.run j w) → P w → P (a.run j w)

namespace Kept

theorem stable (hP : Kept env assumed i P) : (baseLayer env assumed).spec.Stable i P := by
  rintro j w w' hne hinv hw ⟨-, a, hok, hname, -, -, rfl⟩ has
  exact hP.step hinv.1 hok hname (fun h => absurd h.symm hne) has.2 hw

theorem and (hP : Kept env assumed i P) (hQ : Kept env assumed i Q) :
    Kept env assumed i fun w => P w ∧ Q w :=
  ⟨fun hr hok hname hi has h =>
    ⟨hP.step hr hok hname hi has h.1, hQ.step hr hok hname hi has h.2⟩⟩

theorem of_log (hP : ∀ {w w'}, w.log ⊆ w'.log → P w → P w') : Kept env assumed i P :=
  ⟨fun {_ _ a} _ _ _ _ _ hw => hP a.log_run.subset hw⟩

theorem true : Kept env assumed i fun _ => True := ⟨fun _ _ _ _ _ _ => trivial⟩

theorem version {r : Ref} : Kept env assumed i fun w => w.Version b r :=
  of_log fun hlog (h : World.Version _ b r) => h.mono hlog

theorem draft {l : Lineage} : Kept env assumed i fun w => w.Draft i l := by
  refine ⟨fun {j w a} hr hok hname hi _ hd => ?_⟩
  refine hd.run hr hok fun hl => ?_
  have hij : j = i := hr.minted_unique (hname l hl).1 hd.1
  rw [hi hij] at hl
  cases hl

end Kept

/-! ## What a thread does that prepares a lineage -/

/-- It removes only objects of lineages it has minted and no ref has read, so far as
writes that were given up do not land. -/
def Act.tidies (assumed : World → World → Prop) (i : Nat) (w : World) : Act → Prop
  | drop k => (∀ w w', assumed w w' → Punctual k.lineage w w') →
      w.Minted i k.lineage ∧ ¬ w.Named k.lineage
  | sweep .. | late _ => False
  | _ => True

def Prepares (env : Env) (assumed : World → World → Prop) (i : Nat) (w w' : World) : Prop :=
  ∃ a : Act, a.ok env i w ∧ (∀ l, a.names = some l → w.Draft i l) ∧
    a.vouched SaneWrite i w ∧ a.lays BaseOK w ∧ a.tidies assumed i w ∧ a.run i w = w'

abbrev Preparing (env : Env) (assumed : World → World → Prop) (i : Nat) (Q : α → World → Prop)
    (p : M α) (w : World) : Prop :=
  (baseLayer env assumed).spec.Holds (Prepares env assumed i) i Q p w

theorem Prepares.may (h : Prepares env assumed i w w') : (baseLayer env assumed).may i w w' := by
  obtain ⟨a, hok, hname, hv, hl, -, hrun⟩ := h
  exact ⟨a, hok, hname, hv, hl, hrun⟩

theorem Prepares.refl : Prepares env assumed i w w :=
  ⟨.none, trivial, (fun _ h => by cases h), trivial, trivial, trivial, rfl⟩

theorem Prepares.log (h : Prepares env assumed i w w') : w.log ⊆ w'.log := by
  obtain ⟨a, -, -, -, -, -, rfl⟩ := h
  exact a.log_run.subset

/-- Acts that name nothing make no base pointer. -/
theorem Act.nameless.sane {a : Act} (h : a.nameless) (hok : a.ok env i w) :
    a.names = .none ∧ a.vouched SaneWrite i w ∧ a.lays BaseOK w := by
  have hsane (b : BranchId) {op : RefOp} {before : Option Ref} (hn : op.names = .none) :
      SaneWrite w i b before op := by
    intro l r hl
    rw [hn] at hl
    cases hl
  cases a with
  | write b op after | grant b op after lease | send b op before after =>
    exact ⟨h, hsane b h, trivial⟩
  | effect b e r => exact ⟨rfl, hsane b (Act.plain_names hok.2.2), trivial⟩
  | sendDelete b => exact ⟨rfl, hsane b rfl, trivial⟩
  | put k o | sendPut k o co => exact ⟨rfl, trivial, fun l hk => absurd hk (h l)⟩
  | late _ => exact h.elim
  | _ => exact ⟨rfl, trivial, trivial⟩

variable {p : M α}

theorem Does.prepares {A : Act → Prop} (hp : Does env i A p)
    (hA : ∀ {w a}, A a → a.ok env i w → P w → a.names = .none ∧ a.vouched SaneWrite i w ∧
      a.lays BaseOK w ∧ a.tidies assumed i w)
    (hP : Kept env assumed i P) (hw : P w) :
    Preparing env assumed i (fun _ w => P w) p w := by
  refine Prog.All.holds_of_stable hP.stable hw (Prog.All.mono ?_ hp)
  rintro w w' ⟨a, ha, hok, rfl⟩ hinv hw has
  obtain ⟨hn, hv, hl, ht⟩ := hA ha hok hw
  have hname : ∀ l, a.names = some l → w.Draft i l := by simp [hn]
  exact ⟨⟨a, hok, hname, hv, hl, ht, rfl⟩, hP.step hinv.1 hok hname (fun _ => hn) has.2 hw⟩

theorem Act.spares.tidies {a : Act} (h : a.spares) : a.tidies assumed i w := by
  cases a <;> first | exact h.elim | trivial

theorem Does.plain {A : Act → Prop} (hp : Does env i A p) (hA : ∀ a, A a → a.nameless ∧ a.spares)
    (hP : Kept env assumed i P) (hw : P w) : Preparing env assumed i (fun _ w => P w) p w :=
  hp.prepares (fun ha hok _ => by
    obtain ⟨hn, hv, hl⟩ := (hA _ ha).1.sane hok
    exact ⟨hn, hv, hl, (hA _ ha).2.tidies⟩) hP hw

theorem Does.local (hp : Does env i Act.Local p) (hP : Kept env assumed i P) (hw : P w) :
    Preparing env assumed i (fun _ w => P w) p w :=
  hp.plain (fun _ h =>
    ⟨(h.keeps (W := ⊤)).2, (h.grows (W := ⊤)).2⟩) hP hw

theorem Does.copies (hp : Does env i Act.Copies p) (hP : Kept env assumed i P) (hw : P w) :
    Preparing env assumed i (fun _ w => P w) p w :=
  hp.plain (fun _ h => ⟨h.2, (h.1.grows (W := ⊤)).2⟩) hP hw

/-! ## Resolving from reads -/

/-- Every answer the cache holds satisfies what answers satisfied when read. -/
structure Cache.Good (B : Lineage → Except ReadErr (Option BasePointer) → Prop)
    (M : Lineage → List (ChainMember DataKey) → Prop) (c : Cache) : Prop where
  base : ∀ {l ans}, c.bases.lookup l = some ans → B l ans
  members : ∀ {l ms}, c.members.lookup l = some ms → M l ms

namespace Cache.Good

variable {B : Lineage → Except ReadErr (Option BasePointer) → Prop}
  {M : Lineage → List (ChainMember DataKey) → Prop} {c : Cache}

theorem empty : Cache.empty.Good B M :=
  ⟨fun h => by simp [Cache.empty] at h, fun h => by simp [Cache.empty] at h⟩

variable {l : Lineage}

theorem insert_base (h : c.Good B M) {ans : Except ReadErr (Option BasePointer)}
    (hB : B l ans) : Cache.Good B M { c with bases := c.bases.insert l ans } := by
  refine ⟨fun {l' ans'} hl' => ?_, h.members⟩
  by_cases heq : l' = l
  · subst heq
    obtain rfl : ans = ans' := by simpa using hl'
    exact hB
  · exact h.base (by simpa [AList.lookup_insert_ne heq] using hl')

theorem insert_members (h : c.Good B M) {ms : List (ChainMember DataKey)}
    (hM : M l ms) : Cache.Good B M { c with members := c.members.insert l ms } := by
  refine ⟨h.base, fun {l' ms'} hl' => ?_⟩
  by_cases heq : l' = l
  · subst heq
    obtain rfl : ms = ms' := by simpa using hl'
    exact hM
  · exact h.members (by simpa [AList.lookup_insert_ne heq] using hl')

theorem of_view (h : c.Good B M) {bp : BasePointer}
    (hbase : c.view.base l = .ok (some bp)) : B l (.ok (some bp)) := by
  cases hlook : c.bases.lookup l with
  | none => simp [Cache.view, hlook] at hbase
  | some ans =>
    obtain rfl : ans = .ok (some bp) := by simpa [Cache.view, hlook] using hbase
    exact h.base hlook

end Cache.Good

/-- A resolution ends with the answer of the pure resolver on what it has read. -/
theorem resolve_holds {S : Spec World} {G : World → World → Prop}
    {B : World → Lineage → Except ReadErr (Option BasePointer) → Prop}
    {M : World → Lineage → List (ChainMember DataKey) → Prop}
    {f : View DataKey → Except (ChainErr DataKey) α} (hG : ∀ w, G w w)
    (hstable : ∀ c : Cache, S.Stable i fun w => P w ∧ c.Good (B w) (M w))
    (hbase : ∀ w l, S.inv w → P w → B w l (w.objs.base l))
    (hmembers : ∀ w l, S.inv w → P w → M w l (w.objs.members l)) (hw : P w ∧ c.Good (B w) (M w)) :
    S.Holds G i
      (fun r w => P w ∧ (∀ a, r.1 = .ok a → ∃ c : Cache, c.Good (B w) (M w) ∧ f c.view = .ok a) ∧
        ∀ e, r.1 = .error (.chain e) → ∃ c : Cache, c.Good (B w) (M w) ∧ f c.view = .error e ∧
          ∀ rd, e.root ≠ .read rd .uncached)
      (resolve f fuel c) w := by
  induction fuel generalizing c w with
  | zero => exact ⟨hw.1, by simp, by simp⟩
  | succ fuel ih =>
    rw [resolve]
    split
    · rename_i a ha
      refine ⟨hw.1, fun a' h => ?_, by simp⟩
      cases h
      exact ⟨c, hw.2, ha⟩
    · rename_i e he
      split
      · rename_i rd _
        have hfetch : S.Holds G i
            (fun r w => P w ∧ (∀ c', r = .ok c' → c'.Good (B w) (M w)) ∧
              ∀ x, r = .error x → x = .backend) (fetch c rd) w := by
          refine Spec.Holds.read hG (fun _ _ => rfl) (hstable c) hw fun w o hinv hw => ?_
          refine ⟨hw.1, ?_⟩
          split
          · exact ⟨by simp, fun x h => (Except.error.inj h).symm⟩
          refine ⟨fun c' hres => ?_, by simp⟩
          cases hres
          cases rd with
          | base l => exact hw.2.insert_base (hbase w l hinv hw.1)
          | members l => exact hw.2.insert_members (hmembers w l hinv hw.1)
        refine hfetch.bind fun r w hw => ?_
        cases r with
        | error x =>
          obtain rfl := hw.2.2 x rfl
          exact ⟨hw.1, by simp, by simp⟩
        | ok c' => exact ih ⟨hw.1, hw.2.1 c' rfl⟩
      · rename_i hroot
        refine ⟨hw.1, by simp, fun e' h => ?_⟩
        obtain rfl : e = e' := by simpa using h
        exact ⟨c, hw.2, he, fun rd hrd => hroot rd hrd⟩

/-- Where a collapse ends: where it started, or where some base it read leads. -/
theorem collapseBaseFrom_cases {v : View DataKey} {start cur l' : Lineage} {seen : List Lineage}
    (h : collapseBaseFrom v start t fuel cur seen = .ok l') :
    l' = cur ∨ ∃ l bp, v.base l = .ok (some bp) ∧ bp.lineage = l' ∧ t ≤ bp.txid := by
  induction fuel generalizing cur seen with
  | zero => cases h
  | succ fuel ih =>
    rw [collapseBaseFrom] at h
    split at h
    · cases h
    · exact .inl (Except.ok.inj h).symm
    rename_i bp hbase
    split at h
    · exact .inl (Except.ok.inj h).symm
    split at h
    · cases h
    · rcases ih h with rfl | hdeep
      · exact .inr ⟨cur, bp, hbase, rfl, by omega⟩
      · exact .inr hdeep

/-! ## New lineages -/

section Programs

variable {fuel t : Nat} {src : Ref} {l : Lineage}

theorem newLineageID_prepares (hP : Kept env assumed i P) (hw : P w) :
    Preparing env assumed i (fun l w => P w ∧ w.Draft i l) (newLineageID i) w := by
  refine Spec.Holds.step hP.stable hw fun w o hinv hw has => ⟨?_, ?_, hinv.1.draft_mint⟩
  · exact ⟨.mint, trivial, (fun _ h => by cases h), trivial, trivial, trivial, rfl⟩
  · exact hP.step (a := .mint) hinv.1 trivial (fun _ h => by cases h) (fun _ => rfl) has.2 hw

def LeadsAnswer (w : World) (_ : Lineage) (ans : Except ReadErr (Option BasePointer)) : Prop :=
  ∀ bp, ans = .ok (some bp) → w.Leads bp

theorem collapse_prepares (hP : Kept env assumed i P) (hsrc : ∀ {w}, P w → w.Version b src)
    (ht : t ≤ src.headTXID) (hw : P w) :
    Preparing env assumed i
      (fun r w => P w ∧ ∀ l, r.1 = .ok l → w.Leads ⟨l, t⟩)
      (resolve (collapseBase · src.lineage t) fuel .empty) w := by
  refine (resolve_holds (B := LeadsAnswer) (M := fun _ _ _ => True) (fun _ => .refl) (fun c => ?_)
    (fun w l hinv _ bp hans => ?_) (fun _ _ _ _ => trivial) ⟨hw, .empty⟩).mono
    fun r w h => ⟨h.1, fun l hres => ?_⟩
  · have hgood : Kept env assumed i fun w => c.Good (LeadsAnswer w) fun _ _ => True :=
      .of_log fun hlog hc => ⟨fun hl bp hans => (hc.base hl bp hans).mono hlog, hc.members⟩
    exact (hP.and hgood).stable
  · obtain ⟨bp', hbp', hleads⟩ := hinv.2.obj.obj (Objects.base_ok_some.mp hans) l rfl
    obtain rfl : bp = bp' := by simpa using hbp'
    exact hleads
  · obtain ⟨c, hc, hcollapse⟩ := h.2.1 l hres
    rcases collapseBaseFrom_cases hcollapse with rfl | ⟨l₀, bp, hbase, rfl, hle⟩
    · exact ⟨b, src, hsrc h.1, rfl, ht⟩
    · obtain ⟨b', r', hv, hl', hle'⟩ := hc.of_view hbase bp rfl
      exact ⟨b', r', hv, hl', hle.trans hle'⟩

theorem copySnapshotToNewLineage_prepares {members : List (ChainMember DataKey)}
    (hP : Kept env assumed i P) (hw : P w) :
    Preparing env assumed i
      (fun r w => P w ∧ ∀ l, r = .ok l → w.Draft i l)
      (copySnapshotToNewLineage env i members t fuel) w := by
  refine (newLineageID_prepares hP hw).bind fun l w hw => ?_
  refine (tryFastForkCopy_copies.copies (hP.and .draft) hw).bind fun r w hw => ?_
  split
  · exact ⟨hw.1, by simp⟩
  · exact ⟨hw.1, fun _ h => Except.ok.inj h ▸ hw.2⟩
  · refine (copySnapshotIntoLineage_copies.copies (hP.and .draft) hw).bindOk
      (fun _ _ hw => ⟨hw.1, by simp⟩) fun key w hw => ?_
    exact ⟨hw.1, fun _ h => Except.ok.inj h ▸ hw.2⟩

def Fresh (i : Nat) (l : Lineage) (base : Option BasePointer) (w : World) : Prop :=
  w.Draft i l ∧ ∀ bp, base = some bp → w.Leads bp

theorem Fresh.kept {base : Option BasePointer} : Kept env assumed i (Fresh i l base) :=
  Kept.draft.and (.of_log fun hlog h bp hbp => (h bp hbp).mono hlog)

theorem newLineageAt_prepares {members : List (ChainMember DataKey)} {materialize : Bool}
    (hP : Kept env assumed i P) (hsrc : ∀ {w}, P w → w.Version b src) (ht : t ≤ src.headTXID)
    (hw : P w) :
    Preparing env assumed i
      (fun r w => P w ∧ ∀ l base, r = .ok (l, base) → Fresh i l base w)
      (newLineageAt env i src t members materialize fuel) w := by
  unfold newLineageAt
  split
  · refine (copySnapshotToNewLineage_prepares hP hw).bindOk
      (fun _ _ hw => ⟨hw.1, by simp⟩) fun l w hw => ?_
    refine ⟨hw.1, fun l' base h => ?_⟩
    cases h
    exact ⟨hw.2 l rfl, by simp⟩
  · refine (collapse_prepares hP hsrc ht hw).bind fun r w hw => ?_
    split
    · exact ⟨hw.1, by simp⟩
    rename_i baseLineage hres
    have hw' : P w ∧ w.Leads ⟨baseLineage, t⟩ := ⟨hw.1, hw.2 _ hres⟩
    have hP' : Kept env assumed i fun w => P w ∧ w.Leads ⟨baseLineage, t⟩ :=
      hP.and (.of_log fun hlog h => h.mono hlog)
    refine (newLineageID_prepares hP' hw').bind fun l w hw => ?_
    split
    · exact ⟨hw.1.1, by simp⟩
    -- The base object is the one place where a pointer is made.
    have hput : Does env i (fun a => a = .none ∨ ∃ o, o = Obj.base ⟨baseLineage, t⟩ ∧
        (a = .put (.base l) o ∨ a = .sendPut (.base l) o true))
        (putIf env (.base l) (.base ⟨baseLineage, t⟩)) :=
      putIf_does (.inl rfl) (.inr ⟨_, rfl, .inl rfl⟩) (.inr ⟨_, rfl, .inr rfl⟩)
    refine (hput.prepares (fun ha _ hw => ?_) (hP'.and Kept.draft) hw).bind fun r w hw => ?_
    · have hlay {w : World} {l : Lineage} (h : w.Leads ⟨baseLineage, t⟩) :
          BaseOK w (.base l) (.base ⟨baseLineage, t⟩) := fun _ _ => ⟨_, rfl, h⟩
      rcases ha with rfl | ⟨o, rfl, rfl | rfl⟩
      · exact ⟨rfl, trivial, trivial, trivial⟩
      · exact ⟨rfl, trivial, hlay hw.1.2, trivial⟩
      · exact ⟨rfl, trivial, hlay hw.1.2, trivial⟩
    · cases r with
      | error e => exact ⟨hw.1.1, by simp⟩
      | ok u =>
        refine ⟨hw.1.1, fun l' base h => ?_⟩
        cases h
        refine ⟨hw.2, fun bp hbp => ?_⟩
        cases hbp
        exact hw.1.2

/-! ## The write that names it -/

/-- The write that gives a branch its lineage leaves the lineage unnamed, or takes the
one it replaces away for good. -/
theorem putRef_prepares {op : RefOp} {r : Ref} {etag : Option Ref}
    (hP : Kept env assumed i P) (hw : P w ∧ w.Draft i l) (hl : op.names = some l) (hby : op.by i)
    (happly : op.apply etag = some (some r.stored)) (hsane : ∀ {w}, P w → Sane w r.stored) :
    Preparing env assumed i
      (fun _ w => w.Minted i l ∧ (¬ w.Named l ∨ ∀ ref, etag = some ref → w.Lost ref.lineage))
      (putRef env i b op r etag) w := by
  refine putRef_holds (hP.and Kept.draft).stable hw happly hby
    fun w a res hinv hw hputs hok _ has => ⟨?_, ?_⟩
  · have hname : ∀ l', a.names = some l' → w.Draft i l' := by
      intro l' hl'
      have heq : a.names = .none ∨ a.names = some l := by
        rcases hputs with rfl | ⟨rfl, -⟩ | rfl
        · exact .inl rfl
        · exact .inr hl
        · exact .inr hl
      rcases heq with h | h
      · rw [h] at hl'
        cases hl'
      · rw [h] at hl'
        exact Option.some.inj hl' ▸ hw.2
    have hvouch : SaneWrite w i b etag op := by
      intro _ r' _ happly'
      obtain rfl : r.stored = r' := by simpa [happly] using happly'
      exact hsane hw.1
    refine ⟨a, hok, hname, hputs.vouched hvouch, ?_, ?_, rfl⟩
    · rcases hputs with rfl | ⟨rfl, -⟩ | rfl <;> trivial
    · rcases hputs with rfl | ⟨rfl, -⟩ | rfl <;> trivial
  · have hm : (a.run i w).Minted i l := a.log_run.subset hw.2.1
    refine ⟨hm, ?_⟩
    rcases hputs with rfl | ⟨rfl, hit⟩ | rfl
    · exact .inl hw.2.2.1
    · -- It had its effect: the branch no longer reads the lineage it read.
      refine .inr fun ref href => ?_
      rw [href] at hit
      have hnamed : w.Named ref.lineage := ⟨b, ref, hinv.1.current hit, rfl⟩
      have hne : l ≠ ref.lineage := fun h => hw.2.2.1 (h ▸ hnamed)
      refine ⟨hnamed.mono (Act.log_run (.write b op (some r.stored))).subset,
        fun b' r' hcur hrl => ?_⟩
      rw [Act.run, World.lookup_land] at hcur
      split at hcur
      · cases hcur
        obtain ⟨l', hl', hrl', -⟩ | ⟨_, _, hnone, -⟩ := RefOp.apply_cases happly
        · obtain rfl : l = l' := Option.some.inj (hl.symm.trans hl')
          exact hne (hrl'.symm.trans hrl)
        · rw [hl] at hnone
          cases hnone
      · rename_i hb
        exact hb (hinv.1.branch (hinv.1.current hcur) (hinv.1.current hit) hrl)
    · exact .inl hw.2.2.1

/-- The lineage is the thread's and unnamed, so far as writes that were given up do not
land. -/
def Unnamed (assumed : World → World → Prop) (i : Nat) (l : Lineage) (w : World) : Prop :=
  (∀ w w', assumed w w' → Punctual l w w') → w.Minted i l ∧ ¬ w.Named l

theorem Unnamed.kept : Kept env assumed i (Unnamed assumed i l) := by
  refine ⟨fun {j w a} hr hok hname hi has h hpun => ?_⟩
  obtain ⟨hm, hn⟩ := h hpun
  refine ⟨a.log_run.subset hm, hr.not_named_run hok hname hm hn (fun hij => ?_) (hpun _ _ has)⟩
  rw [hi hij]
  simp

theorem lost_kept : Kept env assumed i fun w => w.Lost l :=
  ⟨fun hr hok hname _ _ h => h.run hr hok hname⟩

theorem settleRepoint_prepares {prev : Lineage} (hw : Unnamed assumed i l w ∨ w.Lost prev) :
    Preparing env assumed i
      (fun r w => r = .ok .notLanded → Unnamed assumed i l w)
      (settleRepoint b l (some prev)) w := by
  have hkept : Kept env assumed i fun w => Unnamed assumed i l w ∨ w.Lost prev :=
    ⟨fun hr hok hname hi has h => h.imp (Unnamed.kept.step hr hok hname hi has)
      (lost_kept.step hr hok hname hi has)⟩
  have hread : Preparing env assumed i
      (fun r w => ∀ ref, r = .ok ref → ref.lineage = prev → Unnamed assumed i l w)
      (getRef b) w := by
    refine Spec.Holds.read (fun _ => .refl) (fun _ _ => rfl) hkept.stable hw
      fun w o _ hw ref hres hprev => ?_
    rcases hw with hw | hlost
    · exact hw
    split at hres
    · cases hres
    split at hres
    · rename_i r hcur
      obtain rfl := Except.ok.inj hres
      exact absurd hprev (hlost.2 b r hcur)
    · cases hres
  refine hread.bind fun r w hw => ?_
  split
  · exact fun h => by cases h
  · exact fun h => by cases h
  rename_i ref
  split
  · exact fun h => by cases h
  · split
    · rename_i hprev
      exact fun _ => hw ref rfl (Option.some.inj hprev).symm
    · exact fun h => by cases h

theorem deleteObjs_prepares {ks : List DataKey} (hks : ∀ k ∈ ks, k.lineage = l)
    (hw : Unnamed assumed i l w) : Preparing env assumed i ⊤ (deleteObjs ks) w := by
  induction ks generalizing w with
  | nil => trivial
  | cons k ks ih =>
    have hk : k.lineage = l := hks k List.mem_cons_self
    have hdrop : Does env i (fun a => a = .none ∨ a = .drop k) (deleteObj k) :=
      deleteObj_does (.inl rfl) (.inr rfl)
    refine (hdrop.prepares (fun ha _ hw => ?_) Unnamed.kept hw).bind fun _ w hw =>
      ih (fun k hk => hks k (List.mem_cons_of_mem _ hk)) hw
    rcases ha with rfl | rfl
    · exact ⟨rfl, trivial, trivial, trivial⟩
    · refine ⟨rfl, trivial, trivial, fun hpun => ?_⟩
      rw [hk] at hpun ⊢
      exact hw hpun

end Programs

end Offshoot
