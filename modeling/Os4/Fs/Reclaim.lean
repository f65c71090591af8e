import Mathlib.Data.Fin.SuccPred
import Os4.Fs.Cache
/-!
# Giving inodes back: `itrunc` and `iput` (fs.c:427-452, 504-531)

`itrunc` hands the blocks of an inode to `bfree` one by one. Meanwhile the blocks in use are not
those that the inodes list; the loops are about a map `P` from places to block numbers from which
more and more places are `emptied`, and at the end it is again what the inodes list.
-/
namespace Os4.Fs

open Prog
open Function (update_of_ne update_self)

variable {E : Env} {first : Nat} {p : Int} {N : Nat} {k : Fin NINODE} {i j : Nat}
  {s s1 s' : FsState}
  {T : Nat → Dinode} {F : Panic → Prop} {S S' : List (Nat × Loc)}
  {P : Nat × Loc → Nat} {x : Nat × Loc} {L : List (Fin NINODE)}

/-! ## Freeing blocks -/

/-- The places in `S` refer to nothing any more. -/
def emptied (S : List (Nat × Loc)) (P : Nat × Loc → Nat) (x : Nat × Loc) : Nat :=
  if x ∈ S then 0 else P x

theorem emptied_append : emptied (S ++ S') P = emptied S' (emptied S P) := by
  funext x
  unfold emptied
  by_cases h : x ∈ S <;> by_cases h' : x ∈ S' <;> simp [h, h']

theorem emptied_of_zero (h : ∀ x ∈ S, P x = 0) : emptied S P = P := by
  funext x
  unfold emptied
  split
  · exact (h x ‹_›).symm
  · rfl

/-- Only bits of the bitmap changed: those of the places in `S` are clear now. -/
structure Freed (E : Env) (p : Int) (N : Nat) (k : Fin NINODE) (S : List (Nat × Loc))
    (P : Nat × Loc → Nat) (s s' : FsState) :
    Prop where
  own : Owned (s'.disk (bmBlock E p)).bit (E.offset p + 58) N (emptied S P)
  touch : Touch k s s'
  disk : ∀ y, y ≠ bmBlock E p → s'.disk y = s.disk y

theorem Freed.trans (h : Freed E p N k S P s s1) (h' : Freed E p N k S' (emptied S P) s1 s') :
    Freed E p N k (S ++ S') P s s' where
  own := by rw [emptied_append]; exact h'.own
  touch := h.touch.trans h'.touch
  disk y hy := (h'.disk y hy).trans (h.disk y hy)

/-- What a partition has to be for blocks to be freed in it. -/
structure Freeable (E : Env) (p : Int) (N : Nat) (P : Nat × Loc → Nat) (s : FsState) : Prop where
  sb : getSuperblock (s.disk (E.offset p)) = Mkfs.superblock
  off : E.offset p + 1000 ≤ 2 ^ 28
  le : N ≤ Mkfs.superblock.nblocks
  own : Owned (s.disk (bmBlock E p)).bit (E.offset p + 58) N P

theorem Freed.freeable (h : Freed E p N k S P s s') (hs : Freeable E p N P s) :
    Freeable E p N (emptied S P) s' :=
  ⟨by rw [h.disk _ (by show E.offset p ≠ E.offset p + 57; omega)]; exact hs.sb,
    hs.off, hs.le, h.own⟩

theorem bfree_freed (hs : Freeable E p N P s) (hx : P x ≠ 0) {Q : Unit → FsState → Prop}
    (h : ∀ s', Freed E p N k [x] P s s' → s'.icache = s.icache → Q () s') :
    (bfree E (some p) (P x)).wp Q Fine s := by
  have hr := hs.own.range x hx
  have hN := hs.le
  have hnb : Mkfs.superblock.nblocks = 942 := rfl
  refine bfree_wp hs.sb hs.off (inData_iff.2 ⟨hr.1, by omega⟩) (fun hbit _ =>
    h _ ⟨?_, touch_put, fun y hy => ?_⟩ rfl)
    (fun hclear => ?_) fun _ h => Panic.noConfusion h
  · rw [put_disk, update_self]
    refine hs.own.release (by omega) (· = x) (fun y hy => if_pos (by simp [hy]))
      (fun y hy => if_neg (by simpa using hy))
      fun j => ?_
    rw [Bytes.bit_clearBit _ _ (by simp only [BSIZE]; omega)]
    have hj : j = P x - (E.offset p + 58) ↔ P x = E.offset p + 58 + j := by omega
    simp only [Bool.and_eq_true, forall_eq, hj, Bool.not_eq_true', decide_eq_false_iff_not, ne_eq]
  · rw [put_disk, update_of_ne hy]
  · rw [hs.own.bit_of_ptr hx] at hclear
    cases hclear

/-- The block numbers in the inode are what `P` has for it. -/
def Lists (i : Nat) (P : Nat × Loc → Nat) (d : Dinode) : Prop := ∀ j, P (i, .addr j) = d.addrs j

variable {d : Dinode}

theorem Lists.setAddr (h : Lists i P d) (j : Fin (NDIRECT + 1)) :
    Lists i (emptied [(i, .addr j)] P) (d.setAddr j 0) := by
  intro j'
  rw [Dinode.setAddr_addrs]
  by_cases hj : j' = j
  · rw [hj, update_self]; exact if_pos (by simp)
  · rw [update_of_ne hj, ← h j']; exact if_neg (by simp [hj])

theorem freeAddr_wp {a : Fin (NDIRECT + 1)} (hs : Freeable E p N P s)
    (hk : (s.icache k).prt = some p) (hl : Lists i P (s.icache k).din) {Q : Unit → FsState → Prop}
    (h : ∀ s', Freed E p N k [(i, .addr a)] P s s' → (s'.icache k).din =
      (s.icache k).din.setAddr a 0 → Q () s') :
    (freeAddr E k a).wp Q Fine s := by
  unfold freeAddr
  rw [wp_bind, wp_inode, wp_ite]
  refine ⟨fun hne => ?_, fun hz => ?_⟩
  · rw [← hl a] at hne ⊢
    rw [hk, wp_bind]
    refine bfree_freed (k := k) hs hne fun s' hf hc => ?_
    rw [wp_setDin]
    exact h _ ⟨hf.own, hf.touch.trans touch_withDin, hf.disk⟩ (by rw [withDin_self])
  · have hz : (s.icache k).din.addrs a = 0 := not_not.1 hz
    rw [wp_pure]
    refine h s ⟨?_, Touch.refl k s, fun _ _ => rfl⟩ ?_
    · rw [emptied_of_zero (by simp [hl a, hz])]; exact hs.own
    · rw [Dinode.setAddr, ← hz, Function.update_eq_self]

theorem freeDirect_wp : ∀ (js : List (Fin (NDIRECT + 1))) {s : FsState} {P : Nat × Loc → Nat}
    {Q : Unit → FsState → Prop},
    Freeable E p N P s → (s.icache k).prt = some p → Lists i P (s.icache k).din →
    (∀ s', Freed E p N k (js.map fun a => (i, .addr a)) P s s' →
      Lists i (emptied (js.map fun a => (i, .addr a)) P) (s'.icache k).din →
      (s'.icache k).din = { (s.icache k).din with addrs := (s'.icache k).din.addrs } → Q () s') →
    (freeDirect E k js).wp Q Fine s := by
  intro js
  induction js with
  | nil =>
    intro s P Q hs hk hl h
    rw [freeDirect, wp_pure]
    have h0 : emptied [] P = P := emptied_of_zero (by simp)
    refine h s ⟨?_, Touch.refl k s, fun _ _ => rfl⟩ ?_ rfl
    · rw [List.map_nil, h0]; exact hs.own
    · rw [List.map_nil, h0]; exact hl
  | cons a js ih =>
    intro s P Q hs hk hl h
    rw [freeDirect, wp_bind]
    refine freeAddr_wp hs hk hl fun s1 hf hd => ?_
    have hl1 : Lists i (emptied [(i, .addr a)] P) (s1.icache k).din := by
      rw [hd]
      exact hl.setAddr a
    refine ih (hf.freeable hs) (by rw [hf.touch.slot]; exact hk) hl1 fun s' hf' hl' hd' => ?_
    refine h s' (hf.trans hf') ?_ ?_
    · rw [List.map_cons, ← List.singleton_append, emptied_append]; exact hl'
    · rw [hd', hd]; rfl

theorem freeIndirect_wp :
    ∀ (ks : List (Nat × Loc)) {s : FsState} {P : Nat × Loc → Nat} {Q : Unit → FsState → Prop},
    ks.Nodup → Freeable E p N P s →
    (∀ s', Freed E p N k ks P s s' → s'.icache = s.icache → Q () s') →
    (freeIndirect E (some p) (ks.map P)).wp Q Fine s := by
  intro ks
  induction ks with
  | nil =>
    intro s P Q _ hs h
    rw [List.map_nil, freeIndirect, wp_pure]
    refine h s ⟨?_, Touch.refl k s, fun _ _ => rfl⟩ rfl
    rw [emptied_of_zero (by simp)]; exact hs.own
  | cons x ks ih =>
    intro s P Q hnd hs h
    obtain ⟨hx, hnd⟩ := List.nodup_cons.1 hnd
    -- emptying the place of `x` does not change the entries still to come
    have hmap : ks.map P = ks.map (emptied [x] P) := by
      apply List.map_congr_left
      intro y hy
      exact (if_neg (by rintro h; rw [List.mem_singleton] at h; exact hx (h ▸ hy))).symm
    have hrest : ∀ s1, Freed E p N k [x] P s s1 → s1.icache = s.icache →
        (freeIndirect E (some p) (ks.map P)).wp Q Fine s1 := by
      intro s1 hf hc
      rw [hmap]
      exact ih hnd (hf.freeable hs) fun s' hf' hc' => h s' (hf.trans hf') (hc'.trans hc)
    rw [List.map_cons, freeIndirect, wp_bind, freeEntry, wp_ite]
    refine ⟨fun hne => bfree_freed hs hne hrest, fun hz => ?_⟩
    rw [wp_pure]
    refine hrest s ⟨?_, Touch.refl k s, fun _ _ => rfl⟩ rfl
    rw [emptied_of_zero (by simpa using not_not.1 hz)]; exact hs.own

/-- The places in an indirect block and the one for the block itself. -/
def indirectPlaces (i : Nat) : List (Nat × Loc) :=
  (List.finRange NINDIRECT).map (fun e => (i, .ind e)) ++ [(i, .addr (Fin.last NDIRECT))]

theorem truncIndirect_wp (hs : Freeable E p N P s) (hk : (s.icache k).prt = some p)
    (hl : Lists i P (s.icache k).din)
    (hind : ∀ e, P (i, .ind e) = (s.icache k).din.block s.disk (.ind e)) {Q : Unit → FsState → Prop}
    (h : ∀ s', Freed E p N k (indirectPlaces i) P s s' →
      (s'.icache k).din = (s.icache k).din.setAddr (Fin.last NDIRECT) 0 → Q () s') :
    (truncIndirect E k).wp Q Fine s := by
  have hlast : P (i, .addr (Fin.last NDIRECT)) = (s.icache k).din.indirect := hl _
  unfold truncIndirect
  rw [wp_bind, wp_inode, wp_ite]
  refine ⟨fun hne => ?_, fun hz => ?_⟩
  · have hentries : (List.range NINDIRECT).map (fun e =>
      (s.disk (s.icache k).din.indirect).getLE (4 * e) 4) =
        ((List.finRange NINDIRECT).map fun e => (i, Loc.ind e)).map P := by
      rw [← List.map_coe_finRange_eq_range, List.map_map, List.map_map]
      apply List.map_congr_left
      intro e _
      simp only [Function.comp_apply, hind e, Dinode.block]
      rw [if_neg (show (s.icache k).din.indirect ≠ 0 from hne)]
    have hnd : ((List.finRange NINDIRECT).map fun e => (i, Loc.ind e)).Nodup :=
      (List.nodup_finRange _).map fun a b hab => by simpa using hab
    rw [wp_bind, wp_bread, wp_bind, hk]
    show (freeIndirect E (some p) ((List.range NINDIRECT).map fun e =>
      (s.disk (s.icache k).din.indirect).getLE (4 * e) 4)).wp
      _ Fine s
    rw [hentries]
    refine freeIndirect_wp (k := k) _ hnd hs fun s1 hf hc => ?_
    have hstill : emptied ((List.finRange NINDIRECT).map fun e => (i, Loc.ind e)) P
      (i, .addr (Fin.last NDIRECT)) =
        (s.icache k).din.addrs (Fin.last NDIRECT) := (if_neg (by simp)).trans hlast
    rw [wp_bind, ← hstill]
    refine bfree_freed (k := k) (hf.freeable hs) (by rw [hstill]; exact hne) fun s2 hf2 hc2 => ?_
    have hfreed : Freed E p N k (indirectPlaces i) P s s2 := hf.trans hf2
    rw [wp_setDin]
    exact h _ ⟨hfreed.own, hfreed.touch.trans touch_withDin, hfreed.disk⟩ (by rw [withDin_self])
  · have hz : (s.icache k).din.indirect = 0 := not_not.1 hz
    rw [wp_pure]
    refine h s ⟨?_, Touch.refl k s, fun _ _ => rfl⟩ ?_
    · rw [emptied_of_zero]
      · exact hs.own
      · intro x hx
        rcases List.mem_append.1 hx with hx | hx
        · obtain ⟨e, -, rfl⟩ := List.mem_map.1 hx
          rw [hind e]
          exact if_pos hz
        · rw [List.mem_singleton.1 hx, hlast, hz]
    · have hz' : (s.icache k).din.addrs (Fin.last NDIRECT) = 0 := hz
      rw [Dinode.setAddr, ← hz', Function.update_eq_self]

/-- All places of inode `i`, in the order in which `itrunc` empties them. -/
def places (i : Nat) : List (Nat × Loc) :=
  ((List.finRange NDIRECT).map Fin.castSucc).map (fun a => (i, Loc.addr a)) ++ indirectPlaces i

theorem mem_places : x ∈ places i ↔ x.1 = i := by
  obtain ⟨i', l⟩ := x
  refine ⟨fun h => ?_, fun h => ?_⟩
  · simp only [places, indirectPlaces, List.mem_append, List.mem_map, List.mem_singleton,
      Prod.mk.injEq] at h
    rcases h with ⟨_, _, rfl, -⟩ | ⟨_, _, rfl, -⟩ | ⟨rfl, -⟩ <;> rfl
  obtain rfl : i' = i := h
  cases l with
  | ind e =>
    exact List.mem_append_right _
      (List.mem_append_left _ (List.mem_map.2 ⟨e, List.mem_finRange e, rfl⟩))
  | addr a =>
    induction a using Fin.lastCases with
    | last => exact List.mem_append_right _ (List.mem_append_right _ (List.mem_singleton.2 rfl))
    | cast a =>
      exact List.mem_append_left _ (List.mem_map.2 ⟨a.castSucc,
        List.mem_map.2 ⟨a, List.mem_finRange a, rfl⟩, rfl⟩)

/-! ## `itrunc` -/

/-- The inode has no blocks any more, in the cache and on the disk. -/
structure Trunc (E : Env) (p : Int) (k : Fin NINODE) (i : Nat) (s s' : FsState) : Prop where
  own : Owned (s'.disk (bmBlock E p)).bit (E.offset p + 58) Mkfs.superblock.nblocks
    (emptied (places i) (ptr s.disk (dinodeAt E s.disk p)))
  touch : Touch k s s'
  din : (s'.icache k).din = { dinodeAt E s.disk p i with size := 0, addrs := fun _ => 0 }
  disk : ∀ y, y ≠ bmBlock E p → y ≠ inodeBlock E p i → s'.disk y = s.disk y
  dinodes : ∀ j, j < NINODES → j ≠ i → dinodeAt E s'.disk p j = dinodeAt E s.disk p j

theorem itrunc_wp (hL : Laid E first) (hC : Consistent E s) (hp : IsPart p)
    (hprt : (s.icache k).prt = some p)
    (hinum : (s.icache k).inum = i) (hi : Live (dinodeAt E s.disk p) i)
    (hd : (s.icache k).din = dinodeAt E s.disk p i)
    {Q : Unit → FsState → Prop} (h : ∀ s', Trunc E p k i s s' → Q () s') :
    (itrunc E k).wp Q Fine s := by
  have hV := hC.vol p hp
  have hs : Freeable E p Mkfs.superblock.nblocks (ptr s.disk (dinodeAt E s.disk p)) s :=
    ⟨hV.sb, hL.off_lt hp, Nat.le_refl _, hV.own⟩
  have hlist : Lists i (ptr s.disk (dinodeAt E s.disk p)) (s.icache k).din := fun a => by
    rw [ptr_live hi, hd]
    rfl
  unfold itrunc
  rw [wp_bind]
  refine freeDirect_wp _ hs hprt hlist fun s1 hf1 hl1 hd1 => ?_
  have hprt1 : (s1.icache k).prt = some p := by rw [hf1.touch.slot]; exact hprt
  rw [wp_bind]
  refine truncIndirect_wp (hf1.freeable hs) hprt1 hl1 (fun e => ?_) fun s2 hf2 hd2 => ?_
  · -- the entries are where they were
    have hlast : (s1.icache k).din.indirect = (dinodeAt E s.disk p i).indirect := by
      rw [Dinode.indirect, ← hl1 (Fin.last NDIRECT), emptied,
        if_neg (by simp [Fin.castSucc_ne_last]), hlist, hd]
      rfl
    rw [emptied, if_neg (by simp), ptr_live hi, Dinode.block, Dinode.block, hlast]
    split
    · rfl
    · have := hV.spread.indirect_range hi ‹_›
      rw [hf1.disk _ (by show _ ≠ E.offset p + 57; omega)]
  · have hfreed : Freed E p Mkfs.superblock.nblocks k (places i) (ptr s.disk (dinodeAt E s.disk p))
        s s2 := hf1.trans hf2
    have hzero : ∀ a, (s2.icache k).din.addrs a = 0 := by
      intro a
      rw [hd2, ← hl1.setAddr (Fin.last NDIRECT) a]
      induction a using Fin.lastCases with
      | last => exact if_pos (by simp)
      | cast a => rw [emptied, if_neg (by simp [Fin.castSucc_ne_last]), emptied, if_pos (by simp)]
    have hdin : ({ (s2.icache k).din with size := 0 } : Dinode) =
        { dinodeAt E s.disk p i with size := 0, addrs := fun _ => 0 } := by
      have haddrs : (s2.icache k).din.addrs = fun _ => 0 := funext hzero
      rw [← haddrs, hd2, hd1, hd]
      rfl
    have hb := inodeBlock_range (E := E) (p := p) hi.1
    have hprt2 : (s2.icache k).prt = some p := by rw [hfreed.touch.slot]; exact hprt
    have hinum2 : (s2.icache k).inum = i := by rw [hfreed.touch.slot]; exact hinum
    rw [wp_bind, wp_inode, wp_bind, wp_setDin, hdin]
    refine iupdate_wp (p := p) (hf2.freeable (hf1.freeable hs)).sb
      (by rw [withDin_self]; exact hprt2)
      (fun _ h => Panic.noConfusion h) ?_
    rw [withDin_self, withDin_disk]
    simp only [hinum2]
    refine h _ ⟨?_, (hfreed.touch.trans touch_withDin).trans touch_put,
      by rw [put_icache, withDin_self], fun y h1 h2 => ?_, fun j hj hne => ?_⟩
    · rw [put_disk, update_of_ne (by show E.offset p + 57 ≠ _; omega)]
      exact hfreed.own
    · rw [put_disk, update_of_ne h2]
      exact hfreed.disk y h1
    · refine (dinodeAt_update_ne hne).trans ?_
      have := inodeBlock_range (E := E) (p := p) hj
      show getDinode (s2.disk _) _ = getDinode (s.disk _) _
      rw [hfreed.disk _ (by show _ ≠ E.offset p + 57; omega)]

/-! ## `iput` -/

theorem Trunc.changed (hT : Trunc E p k i s s1) (hC : Consistent E s) (hp : IsPart p)
    (hi : Live (dinodeAt E s.disk p) i) (hd : d.InRange) (hz : d.type = 0)
    (hdisk : s'.disk = updateDisk E p s1.disk i d) : Changed E p i s s' := by
  have hV := hC.vol p hp
  have hb := inodeBlock_range (E := E) (p := p) hi.1
  have hself : dinodeAt E s'.disk p i = d := by rw [hdisk]; exact dinodeAt_update_self hd
  have hother : ∀ j, j < NINODES → j ≠ i → dinodeAt E s'.disk p j = dinodeAt E s.disk p j :=
    fun j hj hne => by
    rw [hdisk, dinodeAt_update_ne hne, hT.dinodes j hj hne]
  have hsame : ∀ y, y ≠ bmBlock E p → y ≠ inodeBlock E p i →
      s'.disk y = s.disk y := fun y h1 h2 => by
    rw [hdisk, updateDisk, update_of_ne h2, hT.disk y h1 h2]
  have hdata : ∀ y, E.offset p + 58 ≤ y → s'.disk y = s.disk y := fun y hy =>
    hsame y (by show y ≠ E.offset p + 57; omega) (by omega)
  have hbm : s'.disk (bmBlock E p) = s1.disk (bmBlock E p) := by
    rw [hdisk, updateDisk, update_of_ne (by show E.offset p + 57 ≠ _; omega)]
  have hlive : ∀ j, Live (dinodeAt E s'.disk p) j → j ≠ i ∧ Live (dinodeAt E s.disk p) j := by
    rintro j ⟨hj, ht⟩
    have hne : j ≠ i := by rintro rfl; rw [hself] at ht; exact ht hz
    exact ⟨hne, hj, by rw [← hother j hj hne]; exact ht⟩
  have hblock : ∀ j l, Live (dinodeAt E s.disk p) j →
      (dinodeAt E s.disk p j).block s'.disk l = (dinodeAt E s.disk p j).block s.disk l :=
        fun j l hj =>
    block_congr fun h => hdata _ (hV.spread.indirect_range hj h).1
  refine ⟨⟨?_, ?_, fun j hj => ?_, fun j bn hj hlt => ?_, fun j _ => inRange_getDinode _ _⟩,
    fun y hy => ?_, hother, fun j hne hj => ?_⟩
  · rw [hsame _ (by show E.offset p ≠ E.offset p + 57; omega) (by omega)]; exact hV.sb
  · rw [hbm]
    refine hT.own.congr (fun _ => rfl) fun x => ?_
    unfold emptied ptr
    by_cases hx : x.1 = i
    · rw [if_pos (mem_places.2 hx), if_neg fun h => (hlive _ h).1 hx]
    · rw [if_neg fun h => hx (mem_places.1 h)]
      by_cases hj : Live (dinodeAt E s.disk p) x.1
      · rw [if_pos hj, if_pos ⟨hj.1, by rw [hother _ hj.1 hx]; exact hj.2⟩,
          hother _ hj.1 hx, hblock _ _ hj]
      · rw [if_neg hj, if_neg fun h => hj (hlive _ h).2]
  · obtain ⟨hne, hj'⟩ := hlive j hj
    rw [hother j hj.1 hne]; exact hV.size j hj'
  · obtain ⟨hne, hj'⟩ := hlive j hj
    rw [hother j hj.1 hne] at hlt ⊢
    rw [fileBlock_congr fun h => hdata _ (hV.spread.indirect_range hj' h).1]
    exact hV.solid j bn hj' hlt
  · have hnb : E.offset p + 57 = bmBlock E p := rfl
    exact hsame y (by omega) (by omega)
  · exact content_congr (fun bn hbn => hV.solid j bn hj hbn) fun bn hbn =>
      ⟨fileBlock_congr fun h => hdata _ (hV.spread.indirect_range hj h).1,
        hdata _ (hV.spread.fileBlock_range hj hbn).1⟩

/-- The inode may be gone if it has no links; the slot and its count stay. -/
structure Reclaimed (E : Env) (L : List (Fin NINODE)) (s : FsState) (k : Fin NINODE)
    (s' : FsState) : Prop where
  inv : Inv E (k :: L) s'
  walked : Walked E L s s'
  other : ∀ q j, IsPart q → j < NINODES →
    (s.ident k ≠ (some q, j) ∨ (dinodeAt E s.disk q j).nlink ≠ 0) → SameFile E s s' q j

theorem reclaimed (hL : Laid E first) (hI : Inv E (k :: L) s) (hfree : k ∉ L)
    (hprt : (s.icache k).prt = some p)
    (hch : Changed E p (s.icache k).inum s s')
    (htype : (dinodeAt E s'.disk p (s.icache k).inum).type = 0)
    (hnlink : (dinodeAt E s'.disk p (s.icache k).inum).nlink =
      (dinodeAt E s.disk p (s.icache k).inum).nlink)
    (hzero : (dinodeAt E s.disk p (s.icache k).inum).nlink = 0)
    (hother : ∀ k', k' ≠ k → s'.icache k' = s.icache k')
    (hid : s'.ident k = s.ident k) (href : (s'.icache k).ref = (s.icache k).ref)
    (hv : (s'.icache k).valid = false) (hframed : Framed s s') : Reclaimed E L s k s' := by
  have hC := hI.consistent
  have hk : 0 < (s.icache k).ref := hI.ref_pos (by simp)
  obtain ⟨hp, hi⟩ := (hC.slot k hk).part p hprt
  have hslots : ∀ k', (s'.icache k').ref = (s.icache k').ref ∧ s'.ident k' = s.ident k' := by
    intro k'
    by_cases h : k' = k
    · rw [h]; exact ⟨href, hid⟩
    · rw [FsState.ident, hother k' h]; exact ⟨rfl, rfl⟩
  have hlater : Later E s s' := by
    intro q j hq hj
    by_cases hne : (q, j) = (p, (s.icache k).inum)
    · obtain ⟨rfl, rfl⟩ := Prod.mk.inj hne
      exact .inr ⟨htype, hnlink⟩
    · exact .inl (hch.sameFile hL hC hp hq hj hne)
  have hC' : Consistent E s' := by
    refine hch.consistent hL hC hp (fun k' hk' => ?_) fun k1 k2 h₁ h₂ h3 h4 => ?_
    · by_cases h : k' = k
      · subst h
        obtain ⟨h1, h2⟩ := Prod.mk.inj hid
        refine ⟨fun q hq => ?_, fun hv' => ?_⟩
        · rw [h1] at hq; rw [h2]; exact (hC.slot k' hk).part q hq
        · rw [hv] at hv'; cases hv'
      · rw [hother k' h] at hk' ⊢
        refine hch.slot hL hC hp (hC.slot k' hk') fun heq => h ?_
        obtain ⟨h1, h2⟩ := Prod.mk.inj heq
        exact hC.unique k' k hk' hk (h1.trans hprt.symm) h2
    · rw [(hslots k1).1] at h₁
      rw [(hslots k2).1] at h₂
      have hids : s.ident k1 = s.ident k2 := by
        rw [← (hslots k1).2, ← (hslots k2).2]
        exact Prod.ext h3 h4
      obtain ⟨h5, h6⟩ := Prod.mk.inj hids
      exact hC.unique k1 k2 h₁ h₂ h5 h6
  refine ⟨⟨hC', hI.dirs.later hlater, fun k' => ?_⟩,
    ⟨⟨fun k' _ => (hslots k').2, fun k' hk' hv' => ?_,
    hframed.mounts, hframed.ftable, hframed.procs⟩, hlater⟩, fun q j hq hj h => ?_⟩
  · rw [(hslots k').1]; exact hI.held k'
  · have hne : k' ≠ k := fun heq => hfree (heq ▸ hk')
    rw [hother k' hne]
    exact ⟨hv', rfl⟩
  · refine hch.sameFile hL hC hp hq hj fun heq => ?_
    obtain ⟨rfl, rfl⟩ := Prod.mk.inj heq
    rcases h with h | h
    · exact h (Prod.ext hprt rfl)
    · exact h hzero

theorem reclaim_wp (hL : Laid E first) (hI : Inv E (k :: L) s) {Q : Unit → FsState → Prop}
    (h : ∀ s', Reclaimed E L s k s' → Q () s') : (reclaim E k).wp Q Fine s := by
  have hC := hI.consistent
  have hk : 0 < (s.icache k).ref := hI.ref_pos (by simp)
  unfold reclaim
  rw [wp_bind, wp_inode, wp_ite]
  refine ⟨?_, fun _ => ?_⟩
  · rintro ⟨hone, hv, hnl⟩
    rw [wp_ite]
    refine ⟨fun _ h => Panic.noConfusion h, fun _ => ?_⟩
    -- nobody else has a reference
    have hfree : k ∉ L := by
      intro hkL
      have h1 := hI.held k
      have h2 := List.count_pos_iff.2 hkL
      rw [List.count_cons_self, hone] at h1
      push_cast at h1
      omega
    obtain ⟨p, hprt, -, -⟩ := (hC.slot k hk).loaded hv
    obtain ⟨hp, hi, hd⟩ := (hC.slot k hk).live hprt hv
    have hC0 : Consistent E (s.withInode k { s.icache k with busy := true }) := by
      refine hC.withInode (fun _ => (hC.slot k hk).congr rfl id rfl) fun k' hne _ hk' heq => hne ?_
      obtain ⟨h1, h2⟩ := Prod.mk.inj heq
      exact hC.unique k' k hk' hk h1 h2
    rw [wp_bind, wp_setInode, wp_bind]
    refine itrunc_wp hL hC0 hp (by rw [withInode_self]; exact hprt) (by rw [withInode_self]) hi
      (by rw [withInode_self]; exact hd) fun s1 hT => ?_
    have hslot1 := hT.touch.slot
    rw [withInode_self] at hslot1
    have hb := inodeBlock_range (E := E) (p := p) hi.1
    have hsb : getSuperblock (s1.disk (E.offset p)) = Mkfs.superblock := by
      rw [hT.disk _ (by show E.offset p ≠ E.offset p + 57; omega) (by omega)]
      exact (hC.vol p hp).sb
    rw [wp_bind, wp_inode, wp_bind, wp_setDin, wp_bind]
    refine iupdate_wp (p := p) hsb (by rw [withDin_self, hslot1]; exact hprt)
      (fun _ h => Panic.noConfusion h) ?_
    rw [wp_bind, wp_inode, wp_setInode]
    have hin : (s1.icache k).inum = (s.icache k).inum := by rw [hslot1]
    simp only [withDin_self, withDin_disk, put_icache, hin]
    have hdz : ({ (s1.icache k).din with type := 0 } : Dinode).InRange := by
      have hr := (hC.vol p hp).inRange _ hi.1
      rw [hT.din]
      exact ⟨show toShort 0 = 0 by decide, hr.major, hr.minor, hr.nlink, Nat.two_pow_pos 32,
        fun _ => Nat.two_pow_pos 32⟩
    have hch : ∀ t : FsState, t.disk =
      updateDisk E p s1.disk (s.icache k).inum { (s1.icache k).din with type := 0 } →
        Changed E p (s.icache k).inum s t := fun t ht => by
      have hch := hT.changed hC0 hp hi hdz rfl ht
      exact ⟨hch.vol, hch.outside, hch.dinodes, hch.content⟩
    refine h _ (reclaimed hL hI hfree hprt (hch _ rfl) ?_ ?_ (by rw [← hd]; exact hnl)
      (fun k' hne => ?_) ?_ ?_ ?_ ?_)
    · exact congrArg Dinode.type (dinodeAt_update_self hdz)
    · have hn : (s1.icache k).din.nlink = (dinodeAt E s.disk p (s.icache k).inum).nlink := by
        rw [hT.din]
        rfl
      exact (congrArg Dinode.nlink (dinodeAt_update_self hdz)).trans hn
    · rw [withInode_ne hne]
      show (s1.withDin k _).icache k' = _
      rw [(touch_withDin).other k' hne, hT.touch.other k' hne, withInode_ne hne]
    · rw [FsState.ident, withInode_self, hslot1]; rfl
    · rw [withInode_self, hslot1]
    · rw [withInode_self]
    · exact local_framed.trans s s1 _ ⟨hT.touch.framed.mounts, hT.touch.framed.ftable,
        hT.touch.framed.procs, hT.touch.framed.outstanding⟩ ⟨rfl, rfl, rfl, rfl⟩
  · rw [wp_pure]
    exact h s ⟨hI, Walked.refl, fun _ _ _ _ _ => SameFile.refl⟩

/-- What `iput` leaves. -/
structure Put (E : Env) (L : List (Fin NINODE)) (s : FsState) (k : Fin NINODE) (s' : FsState) :
    Prop where
  inv : Inv E L s'
  walked : Walked E L s s'
  other : ∀ q j, IsPart q → j < NINODES →
    (s.ident k ≠ (some q, j) ∨ (dinodeAt E s.disk q j).nlink ≠ 0) → SameFile E s s' q j

theorem iput_put (hL : Laid E first) (hI : Inv E (k :: L) s) {Q : Unit → FsState → Prop}
    (h : ∀ s', Put E L s k s' → Q () s') : (iput E k).wp Q Fine s := by
  unfold iput
  rw [wp_bind]
  refine reclaim_wp hL hI fun s1 hR => ?_
  rw [wp_bind, wp_inode, wp_setInode]
  have hk : 0 < (s1.icache k).ref := hR.inv.ref_pos (by simp)
  have hheld := hR.inv.held k
  rw [List.count_cons_self] at hheld
  push_cast at hheld
  refine h _ ⟨hR.inv.withInode hk rfl (fun _ => (hR.inv.consistent.slot k hk).congr rfl id rfl)
    (fun k' hne => by rw [List.count_cons_of_ne hne.symm])
      (by show _ ≤ (s1.icache k).ref - 1; omega), ?_, hR.other⟩
  exact hR.walked.trans (Walked.withInode (fun _ => rfl) fun _ hv => ⟨hv, rfl⟩)

theorem iput_wp (hL : Laid E first) (hI : Inv E (k :: L) s) {Q : Unit → FsState → Prop}
    (h : ∀ s', Inv E L s' → Walked E L s s' → Q () s') : (iput E k).wp Q Fine s :=
  iput_put hL hI fun s' hP => h s' hP.inv hP.walked

theorem iunlockput_put (hL : Laid E first) (hI : Inv E (k :: L) s) {Q : Unit → FsState → Prop}
    (h : ∀ s', Put E L s k s' → Q () s') : (iunlockput E k).wp Q Fine s := by
  unfold iunlockput
  rw [wp_bind]
  refine iunlock_wp hI (by simp) fun s1 hU => iput_put hL hU.inv fun s' hP =>
    h s' ⟨hP.inv, hU.walked.tail.trans hP.walked, fun q j hq hj hne => ?_⟩
  have hid : s1.ident k = s.ident k := hU.walked.ident k (by simp)
  have hsame : SameFile E s s1 q j := ⟨by rw [hU.disk], fun _ => by rw [fileOf, fileOf, hU.disk]⟩
  exact hsame.trans (hP.other q j hq hj (by rw [hid, hU.disk]; exact hne))

theorem iunlockput_wp (hL : Laid E first) (hI : Inv E (k :: L) s) {Q : Unit → FsState → Prop}
    (h : ∀ s', Inv E L s' → Walked E L s s' → Q () s') : (iunlockput E k).wp Q Fine s :=
  iunlockput_put hL hI fun s' hP => h s' hP.inv hP.walked

end Os4.Fs
