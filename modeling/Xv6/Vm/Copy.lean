import Xv6.Vm.Bytes
import Xv6.Vm.Space

/-!
# Copying to the memory of a user

`walkaddr` finds the pages that the user may use. On the page tables of an address space, `copyout`
does to the bytes of the user what it does to them in `Xv6.Vm.UserMem`, where there are no page
tables, and it leaves everything else alone.
-/

namespace Xv6.Vm

section Copy

variable {w w' : Store} {r n : ℕ} {tf tr : Word}

/-! ### The pages of the user -/

variable {v dst dstva : ℕ}

theorem userPage_eq_true : w.kmem.userPage r v = true ↔
    v * PGSIZE < MAXVA ∧ w.pte r v &&& PTE_V ≠ 0 ∧ w.pte r v &&& PTE_U ≠ 0 :=
  decide_eq_true_iff

theorem lt_vpnLimit_of_lt (h : v * PGSIZE < MAXVA) : v < vpnLimit := by
  have h' : v * 4096 < 2 ^ 38 := h
  change v < 2 ^ 27
  omega

/-- The pages that `walkaddr` finds are pages of this user. -/
theorem Space.use_of_userPage (hs : Space w r n tf tr) (h : w.kmem.userPage r v = true) :
    w.use (pte2pa (w.pte r v)) = .user r v := by
  obtain ⟨hlt, hV, hU⟩ := userPage_eq_true.1 h
  have hne : w.pte r v ≠ 0 := by
    intro h₀
    rw [h₀] at hV
    exact hV rfl
  refine ((Store.pte_ok hs.root (lt_vpnLimit_of_lt hlt)).resolve_left hne).2 ⟨?_, ?_⟩
  · rintro rfl
    exact hU (by rw [hs.tramp, hs.tr_kernel])
  · rintro rfl
    exact hU (by rw [hs.frame, hs.tf_kernel])

theorem Space.userPage (hs : Space w r n tf tr) (hv : v < n) (hU : w.pte r v &&& PTE_U ≠ 0) :
    w.kmem.userPage r v = true := by
  have hle : n ≤ 0x88000 := hs.le
  have hlt : v * PGSIZE < MAXVA := by
    change v * 4096 < 2 ^ 38
    omega
  have hne : w.pte r v ≠ 0 := by
    intro h₀
    rw [h₀] at hU
    exact hU rfl
  have hleaf := ((Store.pte_ok hs.root (lt_vpnLimit_of_lt hlt)).resolve_left hne).1
  exact userPage_eq_true.2 ⟨hlt, hleaf.valid, hU⟩

theorem walkaddr_spec (hs : Space w r n tf tr) (v : ℕ) :
    Does w (walkaddr r (v * PGSIZE)) fun pa w' => w' = w ∧
      (w.kmem.userPage r v = true ∧ pa ≠ 0 ∧ pa = pte2pa (w.pte r v) ∧ w.use pa = .user r v ∨
        w.kmem.userPage r v = false ∧ pa = 0) := by
  rw [walkaddr]
  have hfalse {w : Store} {P : Prop} (h : ¬ (v * PGSIZE < MAXVA ∧ w.pte r v &&& PTE_V ≠ 0 ∧
      w.pte r v &&& PTE_U ≠ 0)) : P ∨ w.kmem.userPage r v = false ∧ 0 = 0 :=
    .inr ⟨decide_eq_false h, rfl⟩
  by_cases hmax : MAXVA ≤ v * PGSIZE
  · rw [if_pos hmax]
    exact .pure ⟨rfl, hfalse fun h => absurd h.1 (not_lt.2 hmax)⟩
  rw [if_neg hmax]
  push Not at hmax
  refine (walk_false hs.root hmax).bind ?_
  rintro o w' ⟨rfl, ⟨p, rfl, hp⟩ | ⟨rfl, h₀⟩⟩
  swap
  · exact .pure ⟨rfl, hfalse fun h => h.2.1 (by rw [h₀]; rfl)⟩
  refine readPte_bind ?_
  rw [← Store.pte_of_table hs.root (lt_vpnLimit_of_lt hmax) hp]
  by_cases hV : w'.pte r v &&& PTE_V = 0
  · rw [if_pos hV]
    exact .pure ⟨rfl, hfalse fun h => h.2.1 hV⟩
  rw [if_neg hV]
  by_cases hU : w'.pte r v &&& PTE_U = 0
  · rw [if_pos hU]
    exact .pure ⟨rfl, hfalse fun h => h.2.2 hU⟩
  · rw [if_neg hU]
    have hpage : w'.kmem.userPage r v = true := userPage_eq_true.2 ⟨hmax, hV, hU⟩
    have huse := hs.use_of_userPage hpage
    have hrange := w'.tidy.range _ (by rw [huse]; simp)
    have := w'.tidy.free.first_pos
    exact .pure ⟨rfl, .inl ⟨hpage, by omega, rfl, huse⟩⟩

/-! ### The memory of the user -/

theorem userPage_congr (hpte : ∀ v < vpnLimit, w'.pte r v = w.pte r v) :
    w'.kmem.userPage r = w.kmem.userPage r := by
  funext v
  by_cases hlt : v * PGSIZE < MAXVA
  · have h : w'.kmem.pte r v = w.kmem.pte r v := hpte v (lt_vpnLimit_of_lt hlt)
    rw [Kmem.userPage, Kmem.userPage, h]
  · exact (decide_eq_false fun h => hlt h.1).trans (decide_eq_false fun h => hlt h.1).symm

theorem userMem_mem {a : ℕ} : (w.kmem.userMem r).mem a = if w.kmem.userPage r (a / PGSIZE)
    then pageByte (w.kmem.mem (pte2pa (w.pte r (a / PGSIZE)))) (a % PGSIZE) else 0 := rfl

/-- The mapping of the user and its pages are kept. -/
theorem Space.userMem_congr (hs : Space w r n tf tr)
    (hpte : ∀ v < vpnLimit, w'.pte r v = w.pte r v)
    (hmem : ∀ p v, w.use p = .user r v → w'.kmem.mem p = w.kmem.mem p) :
    w'.kmem.userMem r = w.kmem.userMem r := by
  have hpage := userPage_congr hpte
  refine congrArg₂ UserMem.mk hpage (funext fun a => ?_)
  change (w'.kmem.userMem r).mem a = (w.kmem.userMem r).mem a
  rw [userMem_mem, userMem_mem, hpage]
  split_ifs with h
  · have hlt := lt_vpnLimit_of_lt (userPage_eq_true.1 h).1
    rw [hpte _ hlt, hmem _ _ (hs.use_of_userPage h)]
  · rfl

/-- What happens to another address space does not concern the memory of this user. -/
theorem Others.userMem {r' : ℕ} (h : Others r' w w') (hs : Space w r n tf tr) (hne : r ≠ r') :
    w'.kmem.userMem r = w.kmem.userMem r := by
  refine hs.userMem_congr (fun v hv => h.pte r v hs.root hne hv) fun p v hp => ?_
  refine h.mem (w.tidy.notMem (by simp [hp])) ?_
  rw [hp]
  exact hne

/-- Overwriting a page of the user. -/
theorem writeUser_spec {pa : ℕ} (hu : w.use pa = .user r v) (pg : Page) :
    Does w (writePage pa pg) fun _ w' => Grows w w' ∧ Confined r [] [] w w' ∧
      w'.kmem = w.kmem.write pa pg := by
  have ht : ¬ (w.use pa).IsTable := by simp [hu, Use.IsTable]
  refine (writePage_spec (w.tidy.notMem (by simp [hu])) ht pg).mono ?_
  rintro - w' ⟨hg, hk, huse, hlist⟩
  exact ⟨hg, .of_write (.inr (.inl (by rw [hu]; rfl))) hk huse hlist, hk⟩

/-- One page of the user has been overwritten. -/
theorem Space.userMem_write {pg : Page} (hs : Space w r n tf tr)
    (hv : w.kmem.userPage r v = true) (hg : Grows w w')
    (hk : w'.kmem = w.kmem.write (pte2pa (w.pte r v)) pg) :
    w'.kmem.userMem r = ⟨(w.kmem.userMem r).mapped, fun a =>
      if a / PGSIZE = v then pageByte pg (a % PGSIZE) else (w.kmem.userMem r).mem a⟩ := by
  have hpte (x : ℕ) (hx : x < vpnLimit) : w'.pte r x = w.pte r x := hg.pte r x hs.root hx
  have hpage := userPage_congr hpte
  refine congrArg₂ UserMem.mk hpage (funext fun a => ?_)
  change (w'.kmem.userMem r).mem a = if _ then _ else (w.kmem.userMem r).mem a
  rw [userMem_mem, userMem_mem, hpage]
  by_cases hav : a / PGSIZE = v
  · rw [if_pos hav, hav, if_pos hv, hpte v (lt_vpnLimit_of_lt (userPage_eq_true.1 hv).1), hk,
      Kmem.write_mem_self]
  · rw [if_neg hav]
    split_ifs with h
    · have hne : pte2pa (w.pte r (a / PGSIZE)) ≠ pte2pa (w.pte r v) := by
        intro he
        have hu := hs.use_of_userPage h
        rw [he, hs.use_of_userPage hv] at hu
        exact hav (Use.user.inj hu).2.symm
      rw [hpte _ (lt_vpnLimit_of_lt (userPage_eq_true.1 h).1), hk, Kmem.write_mem_of_ne _ _ hne]
    · rfl

/-! ### `copyout` -/

/-- What a round of `copyout` does to the bytes of one page is what it does to the memory of the
user. The copy has begun at `dst`, and goes on at `dstva`. -/
theorem blit_eq_write {u : UserMem} {src : List (BitVec 8)} {pg : Page}
    (hv : dstva / PGSIZE = v) (hle : dst ≤ dstva) (hstart : dstva = dst ∨ dstva % PGSIZE = 0)
    (hpg : ∀ a, a / PGSIZE = v → u.mem a = pageByte pg (a % PGSIZE)) :
    (⟨u.mapped, fun a => if a / PGSIZE = v
        then pageByte (blit dst src (pgrounddown dstva) pg) (a % PGSIZE) else u.mem a⟩ : UserMem) =
      u.write dstva ((src.drop (dstva - dst)).take
        (min (UserMem.rest dstva) (src.drop (dstva - dst)).length)) := by
  have hdst : dstva / 4096 = v := hv
  have hstart' : dstva = dst ∨ dstva % 4096 = 0 := hstart
  have hrest : dstva + UserMem.rest dstva = v * 4096 + 4096 := by
    rw [UserMem.add_rest, pgrounddown, hv]
  refine congrArg (UserMem.mk u.mapped) (funext fun a => ?_)
  by_cases ha : a / PGSIZE = v
  · have ha' : a / 4096 = v := ha
    have hadd : pgrounddown dstva + a % PGSIZE = a := by
      change dstva / 4096 * 4096 + a % 4096 = a
      omega
    rw [if_pos ha, blit, pageByte_ofBytes _ (Nat.mod_lt a (by decide)), hadd, ← hpg a ha]
    by_cases hda : dstva ≤ a
    · rw [if_pos (hle.trans hda), if_pos hda]
      have hidx : a - dst = dstva - dst + (a - dstva) := by omega
      have hlt : a - dstva < UserMem.rest dstva := by omega
      simp only [List.getD_eq_getElem?_getD, List.getElem?_take, List.getElem?_drop, hidx]
      split_ifs with hin
      · rfl
      · rw [List.getElem?_eq_none]
        rw [List.length_drop] at hin
        omega
    · have hne : ¬ dst ≤ a := by
        rcases hstart' with rfl | h₀
        · exact hda
        · omega
      rw [if_neg hne, if_neg hda]
  · have ha' : a / 4096 ≠ v := ha
    rw [if_neg ha]
    split_ifs with hda
    · rw [List.getD_eq_default]
      rw [List.length_take]
      omega
    · rfl

theorem copyPagesOut_spec (src : List (BitVec 8)) (fuel : ℕ)
    (hs : Space w r n tf tr) (hle : dst ≤ dstva) (hstart : dstva = dst ∨ dstva % PGSIZE = 0) :
    Does w (copyPagesOut r (blit dst src) fuel dstva (src.drop (dstva - dst)).length) fun ok w' =>
      Grows w w' ∧ Confined r [] [] w w' ∧ (ok, w'.kmem.userMem r) =
        UserMem.copyoutLoop fuel (w.kmem.userMem r) dstva (src.drop (dstva - dst)) := by
  induction fuel generalizing w dstva with
  | zero => exact .pure ⟨.refl w, .refl r [] w, rfl⟩
  | succ fuel ih =>
    rw [copyPagesOut]
    by_cases hlen : (src.drop (dstva - dst)).length = 0
    · rw [if_pos hlen, UserMem.copyoutLoop, if_pos (List.length_eq_zero_iff.1 hlen)]
      exact .pure ⟨.refl w, .refl r [] w, rfl⟩
    have hsrc : src.drop (dstva - dst) ≠ [] := fun h => hlen (by rw [h]; rfl)
    rw [if_neg hlen, UserMem.copyoutLoop_succ fuel _ _ hsrc]
    refine (walkaddr_spec hs (dstva / PGSIZE)).bind ?_
    rintro pa w' ⟨rfl, ⟨hpage, hpa, hpte, huse⟩ | ⟨hpage, rfl⟩⟩
    swap
    · rw [if_pos rfl]
      exact .pure ⟨.refl w', .refl r [] w', (if_pos hpage).symm⟩
    rw [if_neg hpa]
    have hmapped : ¬ (w'.kmem.userMem r).mapped (dstva / PGSIZE) = false := by
      change ¬ w'.kmem.userPage r (dstva / PGSIZE) = false
      simp [hpage]
    rw [if_neg hmapped]
    refine readPage_bind ((writeUser_spec huse _).bind ?_)
    rintro - w₁ ⟨hg, hc, hk⟩
    have hnext : dstva + UserMem.rest dstva = pgrounddown dstva + PGSIZE := UserMem.add_rest dstva
    have hpos := UserMem.rest_pos dstva
    -- the page holds the bytes of the user at these addresses
    have hbytes (a : ℕ) (ha : a / PGSIZE = dstva / PGSIZE) :
        (w'.kmem.userMem r).mem a = pageByte (w'.kmem.mem pa) (a % PGSIZE) := by
      rw [userMem_mem, ha, if_pos hpage, ← hpte]
    have hmem := hs.userMem_write hpage hg (by rw [← hpte]; exact hk)
    rw [blit_eq_write rfl hle hstart hbytes] at hmem
    have hdrop : (src.drop (dstva - dst)).drop (min (UserMem.rest dstva)
        (src.drop (dstva - dst)).length) = src.drop (pgrounddown dstva + PGSIZE - dst) := by
      rw [← hnext]
      rcases le_total (UserMem.rest dstva) (src.drop (dstva - dst)).length with hfits | hfits
      · rw [min_eq_left hfits, List.drop_drop]
        congr 1
        omega
      · rw [min_eq_right hfits, List.drop_length, List.drop_eq_nil_of_le]
        rw [List.length_drop] at hfits
        omega
    have hlen' : (src.drop (dstva - dst)).length - min (PGSIZE - (dstva - pgrounddown dstva))
        (src.drop (dstva - dst)).length = (src.drop (pgrounddown dstva + PGSIZE - dst)).length := by
      rw [← hdrop]
      exact List.length_drop.symm
    rw [hlen', hdrop, ← hmem, hnext]
    have haligned : (pgrounddown dstva + PGSIZE) % PGSIZE = 0 := by
      change (dstva / 4096 * 4096 + 4096) % 4096 = 0
      omega
    refine (ih (hs.of_grows hg) (by omega) (.inr haligned)).mono ?_
    rintro ok w₂ ⟨hg₂, hc₂, hu₂⟩
    exact ⟨hg.trans hg₂, hc.trans hc₂, hu₂⟩

/-- **Copying on page tables is copying by virtual address.** -/
theorem copyout_spec {src : List (BitVec 8)} (hs : Space w r n tf tr) :
    Does w (copyout r dstva src.length (blit dstva src)) fun ok w' =>
      Grows w w' ∧ Confined r [] [] w w' ∧
        (ok, w'.kmem.userMem r) = (w.kmem.userMem r).copyout dstva src := by
  have h := copyPagesOut_spec src src.length hs (le_refl dstva) (.inl rfl)
  rw [Nat.sub_self, List.drop_zero] at h
  exact h

end Copy

end Xv6.Vm
