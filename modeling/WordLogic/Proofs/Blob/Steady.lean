import WordLogic.Blob.Payload

/-!
# Readers and more bytes

A reader of a payload looks at the bytes from left to right and at none that it does not take. So
more bytes behind those at hand change neither what it takes nor that it stops, unless it stopped
because the bytes ended (`Steady`). Readers that are put together from such readers are of this kind
(`Steady.bind`), up to the reader of a payload (`steady_readPayload`).

Hence a reader that takes some bytes to the last one finds, in a part of them that is cut off, that
the bytes end (`Steady.ended`).
-/

namespace WordLogic.Blob

/-- More bytes do not change what the reader takes. They do not let it go on either, unless the bytes
ended. -/
structure Steady {α : Type} (r : Reader α) : Prop where
  ok : ∀ {bs rest : List UInt8} {x : α}, r.run bs = .ok (x, rest) →
    ∀ more, r.run (bs ++ more) = .ok (x, rest ++ more)
  error : ∀ {bs : List UInt8} {e : PayloadError}, r.run bs = .error e →
    (∃ missing, e = .ended missing) ∨ ∀ more, ∃ e', r.run (bs ++ more) = .error e'

/-- In a part of what a reader takes to the last byte, the bytes end. -/
theorem Steady.ended {α : Type} {r : Reader α} (h : Steady r) {bs : List UInt8} {x : α}
    (hr : r.run bs = .ok (x, [])) {part : List UInt8} (hp : part <+: bs) (hne : part ≠ bs) :
    ∃ missing, r.run part = .error (.ended missing) := by
  obtain ⟨more, rfl⟩ := hp
  cases hpart : r.run part with
  | ok result =>
    obtain ⟨y, rest⟩ := result
    have hall := (h.ok hpart more).symm.trans hr
    simp only [Except.ok.injEq, Prod.mk.injEq, List.append_eq_nil_iff] at hall
    obtain ⟨-, -, rfl⟩ := hall
    exact absurd (List.append_nil part).symm hne
  | error e =>
    rcases h.error hpart with ⟨missing, rfl⟩ | hstops
    · exact ⟨missing, rfl⟩
    · obtain ⟨e', he⟩ := hstops more
      rw [he] at hr
      cases hr

section Combinators

variable {α β : Type} {r : Reader α}

theorem steady_pure (x : α) : Steady (pure x : Reader α) where
  ok h more := by
    cases h
    rfl
  error := nofun

theorem steady_throw (e : PayloadError) : Steady (throw e : Reader α) where
  ok := nofun
  error _ := .inr fun _ => ⟨e, rfl⟩

/-- One reader after another. -/
theorem Steady.bind {f : α → Reader β} (h : Steady r) (hf : ∀ x, Steady (f x)) :
    Steady (r >>= f) where
  ok {bs rest y} hr more := by
    rw [StateT.run_bind] at hr ⊢
    cases hx : r.run bs with
    | error e =>
      rw [hx] at hr
      cases hr
    | ok result =>
      rw [hx] at hr
      rw [h.ok hx]
      exact (hf result.1).ok hr more
  error {bs e} hr := by
    simp only [StateT.run_bind] at hr ⊢
    cases hx : r.run bs with
    | error e' =>
      rw [hx] at hr
      cases hr
      refine (h.error hx).imp_right fun hstops more => ?_
      obtain ⟨e', he⟩ := hstops more
      exact ⟨e', by rw [he]; rfl⟩
    | ok result =>
      rw [hx] at hr
      refine ((hf result.1).error hr).imp_right fun hstops more => ?_
      rw [h.ok hx]
      exact hstops more

theorem Steady.map (f : α → β) (h : Steady r) : Steady (r >>= fun a => pure (f a)) :=
  h.bind fun a => steady_pure (f a)

theorem Steady.ite {c : Prop} [Decidable c] {r' : Reader α} (h : Steady r) (h' : Steady r') :
    Steady (if c then r else r') := by
  split
  · exact h
  · exact h'

theorem steady_byte : Steady Reader.byte where
  ok {bs rest b} h more := by
    cases bs with
    | nil => cases h
    | cons c bs =>
      cases h
      rfl
  error {bs e} h := by
    cases bs with
    | nil =>
      cases h
      exact .inl ⟨1, rfl⟩
    | cons c bs => cases h

theorem split_continued {count : Nat} {bs xs rest : List UInt8}
    (h : Reader.split count bs = .ok (xs, rest)) (more : List UInt8) :
    Reader.split count (bs ++ more) = .ok (xs, rest ++ more) := by
  induction count generalizing bs xs with
  | zero =>
    cases h
    rfl
  | succ count ih =>
    cases bs with
    | nil => cases h
    | cons b bs =>
      rw [Reader.split] at h
      split at h
      · cases h
      · rename_i ys r hs
        cases h
        rw [List.cons_append, Reader.split, ih hs]

theorem steady_bytes (count : Nat) : Steady (Reader.bytes count) where
  ok {bs rest xs} h more := by
    change Reader.bytes count bs = _ at h
    show Reader.bytes count (bs ++ more) = _
    unfold Reader.bytes at h ⊢
    cases hs : Reader.split count bs with
    | error missing =>
      rw [hs] at h
      cases h
    | ok r =>
      rw [hs] at h
      cases h
      rw [split_continued hs]
  error {bs e} h := by
    change Reader.bytes count bs = _ at h
    unfold Reader.bytes at h
    split at h
    · rename_i missing _
      cases h
      exact .inl ⟨missing, rfl⟩
    · cases h

theorem Steady.many (h : Steady r) : (count : Nat) → Steady (Reader.many r count)
  | 0 => steady_pure []
  | count + 1 => h.bind fun x => (h.many count).map (x :: ·)

theorem steady_row : (count : Nat) → Steady (Reader.row count)
  | 0 => steady_pure _
  | count + 1 => (steady_row count).bind fun v => steady_byte.map v.push

end Combinators

/-! ## Numbers -/

namespace Number

/-- The first byte of a number settles how many bytes follow, or that the number is refused. -/
theorem run_decode (kind : NumberKind) (marker : UInt8) :
    (∃ r : Reader Nat, Steady r ∧ ∀ bs, (decode kind).run (marker :: bs) = r.run bs) ∨
      ∀ bs, ∃ e, (decode kind).run (marker :: bs) = .error e := by
  have hfollowed (count : Nat) :
      Steady (Reader.bytes count >>= fun bs => pure (LittleEndian.decode bs)) :=
    (steady_bytes count).map _
  by_cases h₀ : marker.toNat < 251
  · refine .inl ⟨pure marker.toNat, steady_pure _, fun bs => ?_⟩
    show (if marker.toNat < 251 then pure marker.toNat else _ : Reader Nat) bs = _
    rw [if_pos h₀]
    rfl
  by_cases h₁ : marker = 251
  · subst h₁
    exact .inl ⟨_, hfollowed 2, fun _ => rfl⟩
  by_cases h₂ : marker = 252
  · subst h₂
    exact .inl ⟨_, hfollowed 4, fun _ => rfl⟩
  by_cases h₃ : marker = 253
  · subst h₃
    cases kind with
    | long => exact .inl ⟨_, hfollowed 8, fun _ => rfl⟩
    | listLength => exact .inl ⟨_, hfollowed 8, fun _ => rfl⟩
    | signed => exact .inr fun _ => ⟨_, rfl⟩
    | variant => exact .inr fun _ => ⟨_, rfl⟩
  · refine .inr fun bs => ?_
    show ∃ e, (if marker.toNat < 251 then _ else if marker = 251 then _ else if marker = 252 then _
      else if marker = 253 then _ else _ : Reader Nat) bs = .error e
    rw [if_neg h₀, if_neg h₁, if_neg h₂, if_neg h₃]
    split
    · exact ⟨_, rfl⟩
    · exact ⟨_, rfl⟩

theorem steady_decode (kind : NumberKind) : Steady (decode kind) where
  ok {bs rest n} h more := by
    cases bs with
    | nil => cases h
    | cons marker bs =>
      rw [List.cons_append]
      rcases run_decode kind marker with ⟨r, hr, hrun⟩ | hrefused
      · rw [hrun] at h ⊢
        exact hr.ok h more
      · obtain ⟨e, he⟩ := hrefused bs
        rw [he] at h
        cases h
  error {bs e} h := by
    cases bs with
    | nil =>
      cases h
      exact .inl ⟨1, rfl⟩
    | cons marker bs =>
      simp only [List.cons_append]
      rcases run_decode kind marker with ⟨r, hr, hrun⟩ | hrefused
      · simp only [hrun] at h ⊢
        exact hr.error h
      · exact .inr fun more => hrefused (bs ++ more)

theorem steady_decodeSigned : Steady decodeSigned :=
  (steady_decode .signed).map fun n => Int32.ofInt (unzigzag n)

end Number

/-! ## Parts of a payload -/

open Number

theorem steady_readBool : Steady readBool :=
  steady_byte.bind fun b =>
    .ite (steady_pure false) (.ite (steady_pure true) (steady_throw (.badBool b)))

theorem steady_readText : Steady readText := by
  refine (steady_decode .long).bind fun length => (steady_bytes length).bind fun bytes => ?_
  split
  · exact steady_pure _
  · exact steady_throw _

theorem steady_readList {α : Type} {item : Reader α} (h : Steady item) : Steady (readList item) :=
  (steady_decode .listLength).bind h.many

theorem steady_readAtom : Steady readAtom := by
  refine (steady_decode .variant).bind fun index => ?_
  split
  · exact steady_readText.map Atom.word
  · exact (steady_decode .long).map Atom.group
  · exact steady_throw _

theorem steady_readLiteral : Steady readLiteral :=
  steady_readBool.bind fun _ => steady_readBool.bind fun _ => steady_readAtom.map _

theorem steady_readGroup : Steady readGroup := (steady_readList steady_readLiteral).map Group.mk

theorem steady_readEntry : Steady readEntry :=
  steady_decodeSigned.bind fun _ => steady_decodeSigned.bind fun _ =>
    steady_readText.bind fun _ => (steady_decode .long).bind fun _ =>
      (steady_readList steady_readGroup).map _

theorem steady_readDigest : Steady readDigest :=
  steady_byte.bind fun b =>
    .ite (steady_pure none) (.ite ((steady_row 32).map some) (steady_throw (.badOption b)))

/-- **A payload is read without a look at what follows it.** -/
theorem steady_readPayload : Steady readPayload :=
  (steady_decode .long).bind fun _ => (steady_decode .long).bind fun _ =>
    steady_readDigest.bind fun _ => (steady_readList steady_readEntry).map _

end WordLogic.Blob
