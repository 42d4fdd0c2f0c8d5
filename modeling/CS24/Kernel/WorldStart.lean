import CS24.Kernel.World

/-!
# The world at the start

`kernel_start` gives each process the memory that its image says, whatever was in physical memory
before: the segments, zeros behind their data, and 0xCC in what is left of their pages and in the
stack.  From there on each turn of the kernel is one of the world.
-/

namespace Kernel

open Bytes System Relation

/-- What the segment puts at an address where `old` was. -/
def Segment.byte (seg : Segment) (old : UInt8) (va : Nat) : UInt8 :=
  if seg.va ≤ va then (seg.data[va - seg.va]?).getD (if va < seg.va + seg.size then 0 else old) else old

/-- The memory of a process that was not run yet. -/
def ProgramImage.byte (pgm : ProgramImage) (va : Nat) : Option UInt8 :=
  if va / PAGESIZE = STACK_PAGE then some 0xCC
  else
    (pgm.segments.find? fun seg => seg.first ≤ va / PAGESIZE ∧ va / PAGESIZE < seg.first + seg.count).map
      fun seg => seg.byte 0xCC va

/-- The world in which the first process runs. -/
def initialWorld (b : Build) (command : Option String) : World where
  memory pid va := ((initialProcesses b command).lookup pid).bind fun pgm => pgm.byte va.toNat
  status pid := if ((initialProcesses b command).lookup pid).isSome then .runnable else .free
  current := 1

section Segments

variable {b : Build} {s t : State} {use : Uses} {pid : Nat} {d : Deal} {pgm : ProgramImage}
  {seg : Segment} {f k off : Nat} {mem : Mem}

/-- The bytes of the pages of a segment. -/
theorem Segment.written_byte :
    seg.written f mem ((f + k) * PAGESIZE + off) =
      seg.byte (mem ((f + k) * PAGESIZE + off)) ((seg.first + k) * PAGESIZE + off) := by
  have hiff : f * PAGESIZE + seg.va % PAGESIZE ≤ (f + k) * PAGESIZE + off ↔
      seg.va ≤ (seg.first + k) * PAGESIZE + off := by
    simp only [Segment.first, PAGESIZE]
    omega
  unfold Segment.written Segment.byte blit fill
  by_cases hle : seg.va ≤ (seg.first + k) * PAGESIZE + off
  · have hindex : (f + k) * PAGESIZE + off - (f * PAGESIZE + seg.va % PAGESIZE) =
        (seg.first + k) * PAGESIZE + off - seg.va := by
      simp only [Segment.first, PAGESIZE] at hle ⊢
      omega
    have hlt : (f + k) * PAGESIZE + off < f * PAGESIZE + seg.va % PAGESIZE + seg.size ↔
        (seg.first + k) * PAGESIZE + off < seg.va + seg.size := by
      simp only [Segment.first, PAGESIZE]
      omega
    rw [if_pos (hiff.mpr hle), if_pos hle, hindex]
    simp only [hiff.mpr hle, true_and, hlt]
  · rw [if_neg (mt hiff.mp hle), if_neg hle, if_neg fun h => hle (hiff.mp h.1)]

/-- **What the segments leave in their pages.** By induction on the list of segments. -/
theorem initSegments_bytes {segs : List Segment} (h : Owned b s use) (hroot : HasRoot s use pid)
    (hframes : ∀ page f, d.frames.lookup page = some f → use f = some (.leaf pid page))
    (hfits : ∀ seg ∈ segs, seg.Fits d) (hva : ∀ seg ∈ segs, seg.va < 2 ^ 47)
    (hdisjoint : segs.Pairwise Segment.Disjoint)
    (hrun : segs.foldlM (initSegment (s.pagetable pid)) s = .ok t) :
    ∀ seg ∈ segs, ∀ k < seg.count, ∀ q, d.frames.lookup (seg.first + k) = some q → ∀ off < PAGESIZE,
      t.mem (q * PAGESIZE + off) =
        seg.byte (s.mem (q * PAGESIZE + off)) ((seg.first + k) * PAGESIZE + off) := by
  induction segs generalizing s with
  | nil => exact fun _ hseg => nomatch hseg
  | cons seg segs ih =>
      have hseg := hfits seg List.mem_cons_self
      obtain ⟨f, hf⟩ := hseg.1
      have hinit := initSegment_spec h hroot (fun k hk => hframes _ _ (hf k hk)) hseg
        (hva seg List.mem_cons_self)
      have hother : ∀ a, ¬seg.Has d (a / PAGESIZE) → seg.written f s.mem a = s.mem a :=
        fun a ha => Segment.written_other hseg.2 (Segment.not_has hf ha)
      have howned : Owned b { s with mem := seg.written f s.mem } use := by
        refine h.writes fun p pid' level region hp a ha ha' => hother a ?_
        have hpage : a / PAGESIZE = p := by
          simp only [PAGESIZE] at ha ha' ⊢
          omega
        rintro ⟨k, -, hk⟩
        rw [hpage] at hk
        cases hp.symm.trans (hframes _ _ hk)
      rw [List.foldlM_cons, hinit] at hrun
      rw [List.pairwise_cons] at hdisjoint
      have hfits' : ∀ seg ∈ segs, seg.Fits d := fun seg hseg => hfits seg (List.mem_cons_of_mem _ hseg)
      have hva' : ∀ seg ∈ segs, seg.va < 2 ^ 47 := fun seg hseg => hva seg (List.mem_cons_of_mem _ hseg)
      have hbyte : ∀ q off : Nat, off < PAGESIZE → (q * PAGESIZE + off) / PAGESIZE = q := by
        intro q off hoff
        simp only [PAGESIZE] at hoff ⊢
        omega
      intro seg' hseg' k hk q hq off hoff
      rcases List.mem_cons.mp hseg' with rfl | hseg'
      · -- the segments behind are in other pages
        obtain ⟨mem, hrun', hstays, -⟩ := initSegments_spec howned hroot hframes hfits' hva'
        obtain rfl := Except.ok.inj (hrun'.symm.trans hrun)
        have hqf := Option.some.inj ((hf k hk).symm.trans hq)
        refine (hstays _ ?_).trans (hqf ▸ Segment.written_byte)
        rintro other hmem ⟨k', hk', hq'⟩
        rw [hbyte q off hoff] at hq'
        have hsame := (hframes _ _ hq).symm.trans (hframes _ _ hq')
        exact hdisjoint.1 other hmem k hk k' hk' (Use.leaf.inj (Option.some.inj hsame)).2
      · rw [ih howned hroot hfits' hva' hdisjoint.2 hrun seg' hseg' k hk q hq off hoff]
        refine congrArg (seg'.byte · _) (hother _ ?_)
        rw [hbyte q off hoff]
        rintro ⟨k', hk', hq'⟩
        have hsame := (hframes _ _ hq').symm.trans (hframes _ _ hq)
        exact hdisjoint.1 seg' hseg' k' hk' k hk (Use.leaf.inj (Option.some.inj hsame)).2

/-- The page of a segment is no page of another one. -/
theorem ProgramImage.byte_segment (hdisjoint : pgm.segments.Pairwise Segment.Disjoint)
    (hrange : ∀ seg ∈ pgm.segments, seg.InRange) (hseg : seg ∈ pgm.segments) (hk : k < seg.count)
    (hoff : off < PAGESIZE) :
    pgm.byte ((seg.first + k) * PAGESIZE + off) =
      some (seg.byte 0xCC ((seg.first + k) * PAGESIZE + off)) := by
  have hpage : ((seg.first + k) * PAGESIZE + off) / PAGESIZE = seg.first + k := by
    simp only [PAGESIZE] at hoff ⊢
    omega
  have hstack : seg.first + k ≠ STACK_PAGE := ((hrange seg hseg).bounds hk).2.ne
  have hfind : pgm.segments.find? (fun seg' => seg'.first ≤ seg.first + k ∧
      seg.first + k < seg'.first + seg'.count) = some seg := by
    obtain ⟨i, hi, rfl⟩ := List.mem_iff_getElem.mp hseg
    rw [List.find?_eq_some_iff_getElem]
    refine ⟨by rw [decide_eq_true_iff]; omega, i, hi, rfl, fun j hj => ?_⟩
    rw [Bool.not_eq_true', decide_eq_false_iff_not]
    rintro ⟨hle, hlt⟩
    have hlt : j < pgm.segments.length := hj.trans hi
    have hne := List.pairwise_iff_getElem.mp hdisjoint j i hlt hi hj
    exact hne (pgm.segments[i].first + k - pgm.segments[j].first) (by omega) k hk (by omega)
  rw [ProgramImage.byte, hpage, if_neg hstack, hfind]
  rfl

/-- Other pages than those of the segments and of the stack are not there. -/
theorem ProgramImage.byte_none {va : Nat} (hpages : va / PAGESIZE ∉ pgm.pageNumbers)
    (hstack : va / PAGESIZE ≠ STACK_PAGE) : pgm.byte va = none := by
  have hfind : pgm.segments.find? (fun seg => seg.first ≤ va / PAGESIZE ∧
      va / PAGESIZE < seg.first + seg.count) = none := by
    refine List.find?_eq_none.mpr fun seg hseg hin => hpages ?_
    rw [decide_eq_true_iff] at hin
    refine List.mem_flatMap.mpr ⟨seg, hseg, List.mem_map.mpr ⟨va / PAGESIZE - seg.first, ?_, ?_⟩⟩
    · exact List.mem_range.mpr (by omega)
    · omega
  rw [ProgramImage.byte, if_neg hstack, hfind]
  rfl

/-- **The segments and the stack** leave the image in the pages that were dealt. -/
theorem finishSetup_bytes (h : Dealt b pid s use d) (hroom : d.Room 1) (hfilled : Filled pid s use)
    (hframes : ∀ page f, d.frames.lookup page = some f → page ∈ pgm.pageNumbers)
    (hrange : ∀ seg ∈ pgm.segments, seg.InRange) (hfits : ∀ seg ∈ pgm.segments, seg.Fits d)
    (hdisjoint : pgm.segments.Pairwise Segment.Disjoint) :
    ∃ s' use', finishSetup b pid pgm (s.pagetable pid) s =
        .ok { s' with procState := Function.update s'.procState pid .runnable } ∧
      Extends b pid s use s' use' ∧ Dealt b pid s' use' (d.page STACK_PAGE) ∧
      ∀ page q, use' q = some (.leaf pid page) → ∀ off < PAGESIZE,
        pgm.byte (page * PAGESIZE + off) = some (s'.mem (q * PAGESIZE + off)) := by
  have hva : ∀ seg ∈ pgm.segments, seg.va < 2 ^ 47 := fun seg hseg => (hrange seg hseg).va_lt
  have hleaf : ∀ page f, d.frames.lookup page = some f → use f = some (.leaf pid page) :=
    fun page f hf => (h.frames page f).mp hf
  have hdiv : ∀ q off : Nat, off < PAGESIZE → (q * PAGESIZE + off) / PAGESIZE = q := by
    intro q off hoff
    simp only [PAGESIZE] at hoff ⊢
    omega
  obtain ⟨p, hp⟩ := h.low
  obtain ⟨mem, hrun, hother, -⟩ := initSegments_spec h.owned (h.owned.hasRoot hp) hleaf hfits hva
  have hbytes := initSegments_bytes h.owned (h.owned.hasRoot hp) hleaf hfits hva hdisjoint hrun
  obtain ⟨hdealt, hextends⟩ := h.writesLeaves fun a ha =>
    hother a fun seg _ ⟨k, _, hk⟩ => ha _ (hleaf _ _ hk)
  obtain ⟨s', use', level, f, rest, hstack, hf, hm, hdealt'⟩ :=
    hdealt.mapPage STACK_PAGE (by decide) hroom
  have haddress : STACK_PAGE * PAGESIZE = MEMSIZE_VIRTUAL - PAGESIZE := rfl
  rw [haddress] at hstack
  refine ⟨s', use', ?_, hextends.trans hm.extends, hdealt', ?_⟩
  · rw [finishSetup, hrun]
    rw [ok_bind, hstack]
    rfl
  intro page q hq off hoff
  have hold : page ≠ STACK_PAGE → use q = some (.leaf pid page) := by
    intro hne
    rcases hm.fresh q _ hq with hold | rfl | ⟨-, hlost⟩ | ⟨-, l, htable⟩
    · exact hold
    · exact absurd (Use.leaf.inj (Option.some.inj (hq.symm.trans hm.leaf))).2 hne
    · cases hlost
    · cases htable
  by_cases hpage : page = STACK_PAGE
  · -- the page of the stack is as `kalloc` leaves it
    subst hpage
    obtain rfl : q = f := hm.owned.leaf_unique hq hm.leaf
    rw [hm.filled _ (hdiv q off hoff), ProgramImage.byte, hdiv _ off hoff, if_pos rfl]
  · have hq := hold hpage
    have hlookup := (h.frames page q).mpr hq
    obtain ⟨seg, hseg, hmem⟩ := List.mem_flatMap.mp (hframes page q hlookup)
    obtain ⟨k, hk, rfl⟩ := List.mem_map.mp hmem
    have hk := List.mem_range.mp hk
    rw [ProgramImage.byte_segment hdisjoint hrange hseg hk hoff, Option.some_inj]
    have hkept := hm.mem_leaf (hdealt.owned.unused hf) (a := q * PAGESIZE + off) (by rw [hdiv q off hoff, hq])
    rw [hkept]
    dsimp only at hbytes ⊢
    rw [hbytes seg hseg k hk q hlookup off hoff, hfilled _ (seg.first + k) (by rw [hdiv q off hoff, hq])]

end Segments

/-! ## Processes -/

section Processes

variable {b : Build} {strict : Prop} {s t : State} {use : Uses} {pid page : Nat} {d : Deal}
  {pgm : ProgramImage}

/-- The pages that got one after another page did. -/
theorem Deal.lookup_page (hroom : d.Room 1) {page' : Nat} :
    ((d.page page).frames.lookup page').isSome ↔ page' = page ∨ (d.frames.lookup page').isSome := by
  obtain ⟨f, rest, hf⟩ : ∃ f rest, d.frees = f :: rest :=
    List.exists_cons_of_length_pos (Nat.lt_of_lt_of_le (Nat.lt_add_right _ Nat.one_pos) hroom)
  rw [Deal.page_frames hf, List.lookup_cons]
  cases hsame : page' == page with
  | true => simp [beq_iff_eq.mp hsame]
  | false => simp [beq_eq_false_iff_ne.mp hsame]

/-- The process has the memory of its image if the pages that were dealt have its bytes. -/
theorem Dealt.userByte_image {free : List Nat}
    (h : Dealt b pid s use ((deal free pgm.pageNumbers).page STACK_PAGE))
    (hroom : (deal free pgm.pageNumbers).Room 1) (hrange : ∀ seg ∈ pgm.segments, seg.InRange)
    (hfits : ∀ seg ∈ pgm.segments, seg.Fits (deal free pgm.pageNumbers))
    (hbytes : ∀ page q, use q = some (.leaf pid page) → ∀ off < PAGESIZE,
      pgm.byte (page * PAGESIZE + off) = some (s.mem (q * PAGESIZE + off))) {va : Nat} (hva : va < 2 ^ 64) :
    userByte s pid va = pgm.byte va := by
  obtain ⟨p, hp⟩ := h.low
  have hpage : ∀ {page}, page ∈ pgm.pageNumbers ∨ page = STACK_PAGE → page < 1024 := by
    rintro page (hmem | rfl)
    · exact (pageNumbers_range hrange page hmem).2
    · decide
  have hoff : va % PAGESIZE < PAGESIZE := Nat.mod_lt _ (by decide)
  refine Option.ext fun x => ?_
  rw [h.owned.userByte_eq_some (h.owned.hasRoot hp)]
  constructor
  · rintro ⟨hcanonical, q, hq, rfl⟩
    have hlt := hpage (h.leaf_mem hq)
    have hnumber : virtualPage va = va / PAGESIZE := by
      simp only [virtualPage, vaIsCanonical, VA_LOWMAX, VA_HIGHMIN, PAGESIZE] at *
      omega
    rw [← hbytes _ q hq _ hoff, hnumber, Nat.div_add_mod']
  · intro hbyte
    have hmem : va / PAGESIZE ∈ pgm.pageNumbers ∨ va / PAGESIZE = STACK_PAGE := by
      by_contra hnot
      rw [not_or] at hnot
      cases (ProgramImage.byte_none hnot.1 hnot.2).symm.trans hbyte
    have hlt := hpage hmem
    have hnumber : virtualPage va = va / PAGESIZE := by
      simp only [virtualPage, PAGESIZE] at *
      omega
    -- the page got one, as it is of a segment that fits or of the stack
    have hlookup : (((deal free pgm.pageNumbers).page STACK_PAGE).frames.lookup (va / PAGESIZE)).isSome := by
      rw [Deal.lookup_page hroom]
      refine hmem.symm.imp_right fun hmem => ?_
      obtain ⟨seg, hseg, hmem⟩ := List.mem_flatMap.mp hmem
      obtain ⟨k, hk, hpage⟩ := List.mem_map.mp hmem
      obtain ⟨f, hf⟩ := (hfits seg hseg).1
      rw [← hpage, hf k (List.mem_range.mp hk)]
      rfl
    obtain ⟨q, hq⟩ := Option.isSome_iff_exists.mp hlookup
    have hleaf := (h.frames _ q).mp hq
    have hbyte' := hbytes _ q hleaf _ hoff
    rw [Nat.div_add_mod'] at hbyte'
    refine ⟨canonical_of_lt ?_, q, hnumber ▸ hleaf, Option.some.inj (hbyte'.symm.trans hbyte)⟩
    simp only [PAGESIZE] at hlt
    omega

/-- The pages of other processes stay theirs. -/
theorem Extends.userByte_other {r pid' va : Nat} {use' : Uses}
    (he : Extends b pid (s.withRoot pid r) use t use') (h : Owned b s use) (hne : pid' ≠ pid)
    (hroot : HasRoot s use pid' ∨ s.pagetable pid' = 0) : userByte t pid' va = userByte s pid' va := by
  have hpagetable : t.pagetable pid' = s.pagetable pid' := by
    rw [he.same]
    exact Function.update_of_ne hne ..
  rcases hroot with hroot | hnull
  · have hleaf : ∀ q page, use' q = some (.leaf pid' page) ↔ use q = some (.leaf pid' page) := by
      intro q page
      refine ⟨fun hq => ?_, fun hq => he.keeps q _ hq fun page' heq => ?_⟩
      · rcases he.fresh q _ hq with hold | hof | hlost
        · exact hold
        · exact absurd hof hne
        · cases hlost
      · exact hne (Use.leaf.inj heq).1
    have hroot' : HasRoot t use' pid' := hroot.keep hpagetable fun q hq =>
      he.keeps q _ hq (by rintro _ ⟨⟩)
    refine h.userByte_congr he.owned hroot hroot' (fun q => hleaf q _) fun q hq => ?_
    refine he.mem _ fun u hu => ?_
    rw [page_byte_div] at hu ⊢
    obtain rfl := Option.some.inj (hu.symm.trans ((hleaf q _).mpr hq))
    exact ⟨hq, hne⟩
  · rw [userByte_of_null hnull, userByte_of_null (hpagetable.trans hnull)]

/-- **A process is set up** with the memory of its image, and the others keep theirs. -/
theorem Inv.processSetup_world (h : Inv b 256 strict s use) (hno : NoProcess use pid)
    (hroom : pgm.pageNumbers.length + 6 ≤ (frees b s).length)
    (hsegs : ∀ seg ∈ pgm.segments, seg.InRange ∧ seg.Fits (deal (frees b s) pgm.pageNumbers))
    (hdisjoint : pgm.segments.Pairwise Segment.Disjoint)
    (hrun : Kernel.processSetup b pid pgm s = .ok t) :
    t.world = { s.world with
      memory := Function.update s.world.memory pid fun va => pgm.byte va.toNat
      status := Function.update s.world.status pid .runnable } := by
  have hrange : ∀ seg ∈ pgm.segments, seg.InRange := fun seg hseg => (hsegs seg hseg).1
  have hfits := fun seg hseg => (hsegs seg hseg).2
  obtain ⟨r, s₁, use₁, hsetup, hroot, hdealt, hroom₁, hextends₁, hfilled, -⟩ :=
    processSetup_pages h.owned hno (pageNumbers_range hrange) hroom
  obtain ⟨s₂, use₂, hfinish, hextends₂, hdealt₂, hbytes⟩ := finishSetup_bytes hdealt hroom₁ hfilled
    (fun page f => deal_frames_mem) hrange hfits hdisjoint
  have hextends := hextends₁.trans hextends₂
  obtain rfl := Except.ok.inj (((hsetup pgm rfl).trans (hroot ▸ hfinish)).symm.trans hrun)
  have hprocState : s₂.procState = s.procState := by rw [hextends.same]; rfl
  have hcurrent : s₂.current = s.current := by rw [hextends.same]; rfl
  have hstatus : Function.update s₂.procState pid .runnable = Function.update s.procState pid .runnable := by
    rw [hprocState]
  refine World.ext ?_ hstatus hcurrent
  funext pid' va
  dsimp only
  rw [Function.update_apply]
  split_ifs with hpid
  · subst hpid
    exact hdealt₂.userByte_image hroom₁ hrange hfits hbytes va.toNat_lt
  · exact hextends.userByte_other h.owned hpid ((h.roots pid').imp_right And.left)

/-- **All processes are set up.** By induction on the list of processes. -/
theorem Inv.processSetups_world {processes : List (Nat × ProgramImage)} (h : Inv b 256 strict s use)
    (hpids : (processes.map Prod.fst).Nodup) (hno : ∀ x ∈ processes, NoProcess use x.1)
    (hplaces : Places (frees b s) (processes.map Prod.snd))
    (hdisjoint : ∀ x ∈ processes, x.2.segments.Pairwise Segment.Disjoint)
    (hrun : processes.foldlM (fun s x => Kernel.processSetup b x.1 x.2 s) s = .ok t) (pid : Nat) :
    t.world.memory pid = (processes.lookup pid).elim (s.world.memory pid) (fun pgm va => pgm.byte va.toNat) ∧
      t.world.status pid = (processes.lookup pid).elim (s.world.status pid) fun _ => .runnable := by
  induction processes generalizing s use with
  | nil =>
      obtain rfl := Except.ok.inj hrun
      exact ⟨rfl, rfl⟩
  | cons x processes ih =>
      obtain ⟨hroom, hsegs, hplaces⟩ := hplaces
      rw [List.map_cons, List.nodup_cons] at hpids
      obtain ⟨s₁, use₁, hsetup, hinv, hdealt, hothers, -⟩ := h.processSetup
        (hno x List.mem_cons_self) hroom hsegs fun _ => hdisjoint x List.mem_cons_self
      have hworld := h.processSetup_world (hno x List.mem_cons_self) hroom hsegs
        (hdisjoint x List.mem_cons_self) hsetup
      rw [List.foldlM_cons, hsetup] at hrun
      obtain ⟨hmemory, hstatus⟩ := ih hinv hpids.2
        (fun y hy => hothers y.1 (fun heq => hpids.1 (heq ▸ List.mem_map_of_mem hy))
          (hno y (List.mem_cons_of_mem _ hy)))
        (by rw [hdealt.frees_eq]; exact hplaces)
        (fun y hy => hdisjoint y (List.mem_cons_of_mem _ hy)) hrun
      rw [hmemory, hstatus, hworld]
      cases hpid : pid == x.1 with
      | true =>
          -- it is not set up again
          obtain rfl := beq_iff_eq.mp hpid
          have hnone : processes.lookup x.1 = none := by
            refine List.lookup_eq_none_iff.mpr fun y hy => bne_iff_ne.mpr ?_
            exact fun heq => hpids.1 (heq ▸ List.mem_map_of_mem hy)
          rw [hnone, List.lookup_cons, hpid]
          exact ⟨Function.update_self .., Function.update_self ..⟩
      | false =>
          have hne : pid ≠ x.1 := beq_eq_false_iff_ne.mp hpid
          rw [List.lookup_cons, hpid]
          dsimp only
          rw [Function.update_of_ne hne, Function.update_of_ne hne]
          exact ⟨rfl, rfl⟩

end Processes

/-! ## Runs -/

section Runs

variable {b : Build} {command : Option String} {s : State}

/-- **The start.** Each process has the memory of its image, whatever was in memory before. -/
theorem Booted.world (h : Booted b command s) (hplaces : Places (bootFrees b) (images b command))
    (hdisjoint : ∀ pgm ∈ images b command, pgm.segments.Pairwise Segment.Disjoint) :
    s.world = initialWorld b command := by
  obtain ⟨mem, hstart⟩ := h
  have hstart : ((initialProcesses b command).foldlM (fun s x => Kernel.processSetup b x.1 x.2 s)
      (bootState mem) >>= run b 1) = .ok s := hstart
  obtain ⟨t, hsetups, hrun⟩ := Checked.bind_eq_ok hstart
  have hfrees : frees b (bootState mem) = bootFrees b := frees_congr rfl
  have hworld := (inv_boot b False mem).processSetups_world (initialProcesses_nodup b command)
    (fun _ _ _ _ h => nomatch h) (by rw [hfrees]; exact hplaces)
    (fun x hx => hdisjoint x.2 (List.mem_map_of_mem hx)) hsetups
  obtain ⟨-, hcurrent⟩ := run_world hrun
  rw [hcurrent]
  have hnothing : ∀ pid, (bootState mem).world.memory pid = fun _ => none := by
    intro pid
    funext va
    exact userByte_of_null rfl
  refine World.ext ?_ ?_ rfl
  · funext pid
    refine (hworld pid).1.trans ?_
    rw [hnothing]
    dsimp only [initialWorld]
    cases (initialProcesses b command).lookup pid <;> rfl
  · funext pid
    refine (hworld pid).2.trans ?_
    dsimp only [initialWorld]
    cases (initialProcesses b command).lookup pid <;> rfl

/-- **Runs.** Each is seen as a run of the world in which the same is done. -/
theorem trace_world {acts : List Act} (hplaces : Places (bootFrees b) (images b command))
    (hdisjoint : ∀ pgm ∈ images b command, pgm.segments.Pairwise Segment.Disjoint)
    (h : Trace (Booted b command) (Performs b fun _ => ValidAddress) acts s) :
    Trace (· = initialWorld b command) World.Step acts s.world := by
  refine h.image (fun s hs => hs.world hplaces hdisjoint) fun act s t hr hturn => ?_
  rw [← turn_eq] at hr
  obtain ⟨use, hinv, hroot⟩ : ∃ use, Inv b 256 False s use ∧ HasRoot s use s.current :=
    reach_inv le_rfl hplaces False.elim (fun _ _ hok => hok.low) False.elim hr
  exact hinv.turn_world hroot hturn

/-- Every state is seen as one of the world. -/
theorem reach_world (hplaces : Places (bootFrees b) (images b command))
    (hdisjoint : ∀ pgm ∈ images b command, pgm.segments.Pairwise Segment.Disjoint)
    (hreach : Reach (Booted b command) (Turn b fun _ => ValidAddress) s) :
    Reach (· = initialWorld b command) World.Next s.world := by
  rw [turn_eq] at hreach
  obtain ⟨acts, htrace⟩ := reach_iff_trace.mp hreach
  exact reach_iff_trace.mpr ⟨acts, trace_world hplaces hdisjoint htrace⟩

end Runs

end Kernel
