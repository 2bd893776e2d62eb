import Offshoot.Lib.Sequential
import Offshoot.Store.Reads
import Offshoot.Store.Share
import Offshoot.System.Prepare

/-!
# Operations run alone

With nothing in between, a resolution reads one state of the store.  Given enough reads
it ends as the pure resolver does on that state, and a share that succeeds is one step of
sharing: its pointer names the lineage the collapse over that state asks for.
-/

namespace Offshoot

open Conc Maps List

variable {env : Env} {A : Oracle → World → Prop} {w : World} {i fuel : Nat} {l : Lineage}
variable {S : Finset Lineage}

def Oracle.time (env : Env) (o : Oracle) (w : World) : Nat :=
  if env.oneClock then w.clock else o.num

def Timed (env : Env) (P : Nat → Prop) (o : Oracle) (w : World) : Prop :=
  o.fail = false ∧ P (o.time env w)

/-- The lineages a resolution from `ls` can come to. -/
def World.within (w : World) (ls : List Lineage) : Finset Lineage :=
  (ls ++ w.view.based.filterMap fun l =>
    match w.view.base l with
    | .ok (some b) => some b.lineage
    | _ => none).toFinset

variable {ls : List Lineage}

theorem World.within_start (hl : l ∈ ls) : l ∈ w.within ls := by
  simp [World.within, hl]

theorem World.within_closed : w.view.Closed (· ∈ w.within ls) := by
  intro l b _ hb
  simp only [World.within, mem_toFinset, mem_append, mem_filterMap]
  exact .inr ⟨l, w.view.mem_based hb, by rw [hb]⟩

theorem World.card_within : (w.within ls).card ≤ ls.length + w.view.based.length := by
  refine (toFinset_card_le _).trans ?_
  rw [length_append]
  have := length_filterMap_le (fun l => match w.view.base l with
    | .ok (some b) => some b.lineage
    | _ => none) w.view.based
  omega

/-! ## Reading -/

/-- The reads of `S` the cache does not hold. -/
def Cache.lacking (c : Cache) (S : Finset Lineage) : Nat :=
  (S.filter fun l => c.bases.lookup l = none).card +
    (S.filter fun l => c.members.lookup l = none).card

theorem Cache.lacking_empty : Cache.empty.lacking S ≤ 2 * S.card := by
  have h1 := Finset.card_filter_le S fun l => Cache.empty.bases.lookup l = none
  have h2 := Finset.card_filter_le S fun l => Cache.empty.members.lookup l = none
  unfold Cache.lacking
  omega

abbrev Cache.Reads (c : Cache) (w : World) : Prop :=
  c.Good (fun l ans => ans = w.objs.base l) (fun l ms => ms = w.objs.members l)

variable {c : Cache}

theorem Cache.Good.part (h : c.Reads w) : c.view.Part w.view where
  base l := by
    cases hl : c.bases.lookup l with
    | none => exact .inl (by simp [Cache.view, hl])
    | some ans =>
      refine .inr ?_
      simp only [Cache.view, hl, Option.getD_some]
      exact h.base hl
  members l := by
    cases hl : c.members.lookup l with
    | none => exact .inl (by simp [Cache.view, hl])
    | some ms =>
      refine .inr ?_
      simp only [Cache.view, hl]
      rw [h.members hl]
      rfl

def Cache.after (c : Cache) (w : World) : Read → Cache
  | .base l => { c with bases := c.bases.insert l (w.objs.base l) }
  | .members l => { c with members := c.members.insert l (w.objs.members l) }

theorem Cache.Good.after (h : c.Reads w) (rd : Read) : (c.after w rd).Reads w := by
  cases rd with
  | base l => exact h.insert_base rfl
  | members l => exact h.insert_members rfl

theorem card_filter_insert_lt {β : Type} {m : Map Lineage β} {x : β} (hl : l ∈ S)
    (hnone : m.lookup l = none) :
    (S.filter fun l' => (m.insert l x).lookup l' = none).card <
      (S.filter fun l' => m.lookup l' = none).card := by
  refine Finset.card_lt_card ⟨fun l' hl' => ?_, fun hsub => ?_⟩
  · simp only [Finset.mem_filter] at hl' ⊢
    refine ⟨hl'.1, ?_⟩
    by_cases heq : l' = l
    · rw [heq]
      exact hnone
    · rw [← AList.lookup_insert_ne heq]
      exact hl'.2
  · have := hsub (Finset.mem_filter.mpr ⟨hl, hnone⟩)
    simp at this

theorem Cache.lacking_after {rd : Read} (hlacks : c.view.Lacks rd) (hrd : rd.lineage ∈ S)
    (h : c.Reads w) (hbase : ∀ l, w.objs.base l ≠ .error .uncached) :
    (c.after w rd).lacking S < c.lacking S := by
  cases rd with
  | base l =>
    have hnone : c.bases.lookup l = none := by
      cases hl : c.bases.lookup l with
      | none => rfl
      | some ans =>
        have hans : ans = .error .uncached := by simpa [View.Lacks, Cache.view, hl] using hlacks
        exact absurd ((h.base hl).symm.trans hans) (hbase l)
    have hlt := card_filter_insert_lt (l := l) (x := w.objs.base l) hrd hnone
    exact Nat.add_lt_add_right hlt _
  | members l =>
    have hnone : c.members.lookup l = none := by
      cases hl : c.members.lookup l with
      | none => rfl
      | some ms => simp [View.Lacks, Cache.view, hl] at hlacks
    have hlt := card_filter_insert_lt (l := l) (x := w.objs.members l) hrd hnone
    exact Nat.add_lt_add_left hlt _

theorem Objects.base_ne_uncached {objs : Objects} : objs.base l ≠ .error .uncached := by
  unfold Objects.base
  split <;> simp

/-- With enough reads a resolution that runs alone ends as it does on the store. -/
theorem resolve_alone {f : View DataKey → Except (ChainErr DataKey) α} {a : α}
    (hA : ∀ o w, A o w → o.fail = false)
    (hf : ∀ v : View DataKey, v.Part w.view → Waits v (· ∈ S) (f v) ∨ f v = f w.view)
    (hok : f w.view = .ok a) (hc : c.Reads w) (hfuel : c.lacking S < fuel) :
    (resolve f fuel c).Alone A (fun r w' => r.1 = .ok a ∧ w' = w) w := by
  induction fuel generalizing c with
  | zero => exact absurd hfuel (Nat.not_lt_zero _)
  | succ fuel ih =>
    rw [resolve]
    rcases hf c.view hc.part with ⟨e, rd, he, hroot, hlacks, hrd⟩ | heq
    · rw [he]
      dsimp only
      rw [hroot]
      have hfetch : (fetch c rd).Alone A (fun r w' => r = .ok (c.after w rd) ∧ w' = w) w := by
        refine .step fun o ho => ⟨?_, rfl⟩
        rw [hA o w ho]
        cases rd <;> rfl
      refine hfetch.bind fun r w' hr => ?_
      obtain ⟨rfl, rfl⟩ := hr
      have hlt := Cache.lacking_after hlacks hrd hc fun _ => Objects.base_ne_uncached
      exact ih (hc.after rd) (by omega)
    · rw [heq, hok]
      exact ⟨rfl, rfl⟩

/-! ## Sharing -/

theorem Collapses.of_part {v v' : View DataKey} {t : Nat} {m : Lineage} (h : v.Part v')
    (hm : Collapses v t l m) : Collapses v' t l m := by
  have hbase {l : Lineage} {b : Option BasePointer} (hb : v.base l = .ok b) :
      v'.base l = .ok b := by
    rcases h.base l with hl | hl
    · cases hl.symm.trans hb
    · exact hl.symm.trans hb
  induction hm with
  | root hb => exact .root (hbase hb)
  | owns hb hlt => exact .owns (hbase hb) hlt
  | through hb hle _ ih => exact .through (hbase hb) hle ih

/-- Whatever fails, what a resolution that runs alone returns it has computed from reads of
the one state. -/
theorem resolve_reads {f : View DataKey → Except (ChainErr DataKey) α}
    (hc : c.Reads w) : (resolve f fuel c).Alone A (fun r w' => w' = w ∧ ∀ a, r.1 = .ok a →
      ∃ c : Cache, c.Reads w ∧ f c.view = .ok a) w := by
  induction fuel generalizing c with
  | zero => exact ⟨rfl, by simp⟩
  | succ fuel ih =>
    rw [resolve]
    split
    · rename_i a ha
      refine ⟨rfl, fun a' h => ⟨c, hc, ?_⟩⟩
      rw [ha, Except.ok.inj h]
    split
    · rename_i rd _
      have hfetch : (fetch c rd).Alone A
          (fun r w' => w' = w ∧ ∀ c', r = .ok c' → c' = c.after w rd) w := by
        refine .step fun o _ => ⟨rfl, fun c' h => ?_⟩
        split at h
        · cases h
        · rw [← Except.ok.inj h]
          cases rd <;> rfl
      refine hfetch.bind fun r w' hr => ?_
      obtain ⟨rfl, hr⟩ := hr
      cases r with
      | error e => exact ⟨rfl, by simp⟩
      | ok c' =>
        obtain rfl := hr c' rfl
        exact ih (hc.after rd)
    · exact ⟨rfl, by simp⟩

/-- The base object of a fresh lineage is all that is new. -/
theorem World.view_shares {f : Lineage} {bp : BasePointer} (hf : w.view.Fresh f) :
    w.view.Shares f bp (w.putObj (.base f) (.base bp)).view where
  new := Objects.base_ok_some.mpr (by simp [World.putObj])
  base l hl := by
    have hne : DataKey.base l ≠ .base f := fun h => hl (DataKey.base.inj h)
    show Objects.base _ l = Objects.base _ l
    simp [Objects.base, World.putObj, AList.lookup_insert_ne hne]
  members l := by
    have hnone : DataKey.base f ∉ w.objs.keys :=
      AList.lookup_eq_none.mp (Objects.base_ok_none.mp hf.base)
    refine congrArg Except.ok ?_
    rw [World.putObj, Objects.members, Objects.members, AList.keys_insert,
      erase_of_not_mem hnone, filter_cons]
    split <;> rfl

/-- A share that runs alone and succeeds is a step of sharing. -/
theorem newLineageAt_alone {src : Ref} {txid : Nat} {members : List (ChainMember DataKey)}
    {materialize : Bool} (hv : w.view.Acyclic) (hfresh : w.view.Fresh w.nextLineage)
    (hl : src.lineage ∈ ls) :
    (newLineageAt env i src txid members materialize fuel).Alone A
      (fun r w' => ∀ f bp, r = .ok (f, some bp) →
        ShareStep txid (w.view, ls) (w'.view, f :: ls)) w := by
  rw [newLineageAt]
  split
  · refine (Prog.Alone.intro (Q := fun _ _ => True) fun _ _ => trivial).bind fun r w' _ => ?_
    cases r <;> exact fun _ _ h => by cases h
  refine (resolve_reads Cache.Good.empty).bind fun r w' hr => ?_
  obtain ⟨rfl, hr⟩ := hr
  split
  · exact fun _ _ h => by cases h
  rename_i m hm
  obtain ⟨c, hc, hcollapse⟩ := hr m hm
  have hm :=
    (collapseBase_ok_iff hv).mpr ((collapses_of_collapseBaseFrom hcollapse).of_part hc.part)
  refine Prog.Alone.bind (Q := fun f w'' => f = w'.nextLineage ∧ w''.objs = w'.objs)
    (.step fun _ _ => ⟨rfl, rfl⟩) fun f w'' hf => ?_
  obtain ⟨rfl, hobjs⟩ := hf
  split
  · exact fun _ _ h => by cases h
  refine Prog.Alone.bind (Q := fun r w₁ => r = .ok () →
    w₁.view = (w'.putObj (.base w'.nextLineage) (.base ⟨m, txid⟩)).view) (.step fun o _ => ?_)
    fun r w₁ hw₁ => ?_
  · dsimp only
    split
    · intro _
      simp [World.view, World.putObj, hobjs]
    · exact fun h => by cases h
  · cases r with
    | error e => exact fun _ _ h => by cases h
    | ok u =>
      intro f bp h
      cases h
      rw [hw₁ rfl]
      exact .share hl hm hfresh (World.view_shares hfresh)

end Offshoot
