import BlackCircle.Twitter.Stores

/-!
# Referential integrity of the stores

What a message asks of the stores is a list of store operations, which does not
depend on what is stored.  Carrying out a message carries out these operations.
In such a list every tweet stands behind its author; the author is then stored,
unless the user store has refused it for its screen name.
-/

namespace BlackCircle.Twitter.Integrity

open BlackCircle.Foundation
open BlackCircle.Foundation.ByteString
open BlackCircle.Foundation.EntryList (find)
open BlackCircle.Json (Value)
open BlackCircle.Twitter

variable {Time : Type}

/-! ## Integrity -/

/-- A user with this id is stored. -/
def Present (s : Stores Time) (id : UInt64) : Prop := ∃ u ∈ s.userStore.elements, u.id = id

instance (s : Stores Time) (id : UInt64) : Decidable (Present s id) :=
  inferInstanceAs (Decidable (∃ u ∈ s.userStore.elements, u.id = id))

/-- The author of every stored tweet is stored. -/
def AuthorsStored (s : Stores Time) : Prop := ∀ t ∈ s.tweetStore.elements, Present s t.userId

instance (s : Stores Time) : Decidable (AuthorsStored s) :=
  inferInstanceAs (Decidable (∀ t ∈ s.tweetStore.elements, Present s t.userId))

/-! ## Store operations -/

inductive StoreOp (Time : Type) where
  | insertUser (u : TwitterUserObject Time)
  | insertTweet (t : TweetObject Time)
  | eraseTweet (id : UInt64)

namespace StoreOp

def apply : StoreOp Time → Stores Time → Stores Time
  | .insertUser u, s => { s with userStore := s.userStore.insert u }
  | .insertTweet t, s => { s with tweetStore := s.tweetStore.insert t }
  | .eraseTweet id, s => { s with tweetStore := s.tweetStore.keep fun t => t.id != id }

/-- A user is welcome if its id is stored already, or else its screen name is not. -/
def Welcome (s : Stores Time) : StoreOp Time → Prop
  | .insertUser u => Present s u.id ∨ ∀ v ∈ s.userStore.elements, v.screenName ≠ u.screenName
  | .insertTweet _ => True
  | .eraseTweet _ => True

instance (s : Stores Time) : (op : StoreOp Time) → Decidable (op.Welcome s)
  | .insertUser u => inferInstanceAs (Decidable
      (Present s u.id ∨ ∀ v ∈ s.userStore.elements, v.screenName ≠ u.screenName))
  | .insertTweet _ => inferInstanceAs (Decidable True)
  | .eraseTweet _ => inferInstanceAs (Decidable True)

end StoreOp

def applyAll (ops : List (StoreOp Time)) (s : Stores Time) : Stores Time :=
  ops.foldl (fun s op => op.apply s) s

/-- Every user in the list is welcome when its turn comes. -/
def AllWelcome : Stores Time → List (StoreOp Time) → Prop
  | _, [] => True
  | s, op :: ops => op.Welcome s ∧ AllWelcome (op.apply s) ops

def decideAllWelcome :
    (s : Stores Time) → (ops : List (StoreOp Time)) → Decidable (AllWelcome s ops)
  | _, [] => isTrue trivial
  | s, op :: ops =>
      have := decideAllWelcome (op.apply s) ops
      inferInstanceAs (Decidable (op.Welcome s ∧ AllWelcome (op.apply s) ops))

instance (s : Stores Time) (ops : List (StoreOp Time)) : Decidable (AllWelcome s ops) :=
  decideAllWelcome s ops

/-- Every tweet in the list has an author that is known or stands before it. -/
def Authored : (UInt64 → Prop) → List (StoreOp Time) → Prop
  | _, [] => True
  | known, .insertUser u :: ops => Authored (fun id => known id ∨ id = u.id) ops
  | known, .insertTweet t :: ops => known t.userId ∧ Authored known ops
  | known, .eraseTweet _ :: ops => Authored known ops

/-- The users that a list of operations inserts. -/
def Inserts (ops : List (StoreOp Time)) (id : UInt64) : Prop :=
  ∃ u, StoreOp.insertUser u ∈ ops ∧ u.id = id

theorem Authored.mono {ops : List (StoreOp Time)} {known known' : UInt64 → Prop}
    (h : Authored known ops) (hle : ∀ id, known id → known' id) : Authored known' ops := by
  induction ops generalizing known known' with
  | nil => trivial
  | cons op ops ih =>
      cases op with
      | insertUser u => exact ih h fun id => Or.imp_left (hle id)
      | insertTweet t => exact ⟨hle _ h.1, ih h.2 hle⟩
      | eraseTweet id => exact ih h hle

theorem Authored.append {ops more : List (StoreOp Time)} {known : UInt64 → Prop}
    (h : Authored known ops) (hmore : Authored (fun id => known id ∨ Inserts ops id) more) :
    Authored known (ops ++ more) := by
  induction ops generalizing known with
  | nil =>
      refine hmore.mono fun id hid => hid.resolve_right ?_
      rintro ⟨u, hmem, -⟩
      cases hmem
  | cons op ops ih =>
      cases op with
      | insertUser u =>
          refine ih h (hmore.mono fun id hid => ?_)
          rcases hid with hid | ⟨v, hmem, rfl⟩
          · exact Or.inl (Or.inl hid)
          · rcases List.mem_cons.mp hmem with heq | hmem
            · cases heq
              exact Or.inl (Or.inr rfl)
            · exact Or.inr ⟨v, hmem, rfl⟩
      | insertTweet t =>
          refine ⟨h.1, ih h.2 (hmore.mono fun id hid => hid.imp_right ?_)⟩
          rintro ⟨v, hmem, rfl⟩
          exact ⟨v, (List.mem_cons.mp hmem).resolve_left nofun, rfl⟩
      | eraseTweet erased =>
          refine ih h (hmore.mono fun id hid => hid.imp_right ?_)
          rintro ⟨v, hmem, rfl⟩
          exact ⟨v, (List.mem_cons.mp hmem).resolve_left nofun, rfl⟩

/-! ### Operations keep integrity -/

theorem present_apply {s : Stores Time} {id : UInt64} (h : Present s id) (op : StoreOp Time) :
    Present (op.apply s) id := by
  obtain ⟨u, hmem, hid⟩ := h
  cases op with
  | insertUser v => exact ⟨u, Container.mem_insert_of_mem hmem, hid⟩
  | insertTweet t => exact ⟨u, hmem, hid⟩
  | eraseTweet erased => exact ⟨u, hmem, hid⟩

/-- A welcome user is stored behind its insertion. -/
theorem present_insertUser {s : Stores Time} {u : TwitterUserObject Time}
    (h : (StoreOp.insertUser u).Welcome s) : Present ((StoreOp.insertUser u).apply s) u.id := by
  rcases h with hid | hname
  · exact present_apply hid _
  · rcases Container.mem_insert_or_clash s.userStore u with hmem | ⟨v, hmem, hclash⟩
    · exact ⟨u, hmem, rfl⟩
    · rcases hclash with hid | hsame
      · exact ⟨v, Container.mem_insert_of_mem hmem, hid⟩
      · exact absurd hsame (hname v hmem)

/-- Operations whose users are all welcome and whose tweets have authors keep integrity. -/
theorem authorsStored_applyAll {ops : List (StoreOp Time)} {s : Stores Time} {known : UInt64 → Prop}
    (hknown : ∀ id, known id → Present s id) (hauthored : Authored known ops)
    (hwelcome : AllWelcome s ops) (hintegrity : AuthorsStored s) :
    AuthorsStored (applyAll ops s) := by
  induction ops generalizing s known with
  | nil => exact hintegrity
  | cons op ops ih =>
      have hkept : ∀ id, known id → Present (op.apply s) id :=
        fun id hid => present_apply (hknown id hid) op
      cases op with
      | insertUser u =>
          refine ih (fun id hid => ?_) hauthored hwelcome.2
            fun t hmem => present_apply (hintegrity t hmem) _
          rcases hid with hid | rfl
          · exact hkept id hid
          · exact present_insertUser hwelcome.1
      | insertTweet t =>
          refine ih hkept hauthored.2 hwelcome.2 fun t' hmem => ?_
          rcases Container.mem_of_mem_insert hmem with rfl | hmem
          · exact hkept _ hauthored.1
          · exact present_apply (hintegrity t' hmem) _
      | eraseTweet id =>
          refine ih hkept hauthored hwelcome.2 fun t hmem => ?_
          exact present_apply (hintegrity t (Container.mem_keep.mp hmem).1) _

/-! ## What a message asks of the stores -/

/-- Operations, and how the computation that makes them ends. -/
structure Plan (Time α : Type) where
  ops : List (StoreOp Time)
  result : Except Failure α

/-- How the constructor of a tweet ends. -/
def ended : Option (TweetObject Time) → Except Failure (TweetObject Time)
  | some t => .ok t
  | none => .error .propertiesNotFound

section Plans

variable (readTime : Bytes → Time)

/-- The plan for the constructor of a tweet, over the plan for its retweeted status. -/
def planTweet (here : Surroundings Time) (o : Members)
    (retweeted : Option (Plan Time (TweetObject Time))) : Plan Time (TweetObject Time) :=
  let user := setIfFound (asUser readTime here) o (ascii "user")
  let author := user.toList.map StoreOp.insertUser
  match retweeted with
  | none => ⟨author, ended (tweetMembers readTime here o user none)⟩
  | some ⟨ops, .error failure⟩ => ⟨author ++ ops, .error failure⟩
  | some ⟨ops, .ok t⟩ =>
      ⟨author ++ (ops ++ [.insertTweet t]), ended (tweetMembers readTime here o user (some t.id))⟩

mutual

def planRetweeted (around : Nat → Surroundings Time) :
    Members → Option (Plan Time (TweetObject Time))
  | [] => none
  | member :: o =>
      if member.1 = ascii "retweeted_status" then planMember around member
      else planRetweeted around o

def planMember (around : Nat → Surroundings Time) :
    Bytes × Value → Option (Plan Time (TweetObject Time))
  | (_, value) => planValue around value

def planValue (around : Nat → Surroundings Time) : Value → Option (Plan Time (TweetObject Time))
  | .array _ => none
  | .string _ => none
  | .int _ => none
  | .real _ => none
  | .object o =>
      some (planTweet readTime (around 0) o (planRetweeted (fun n => around (n + 1)) o))
  | .bool _ => none
  | .null => none

end

/-- The id in a delete notice. -/
def deletedId (o : Members) : Option UInt64 := do
  let deleted ← (find (ascii "delete") o).bind asObject
  let status ← (find (ascii "status") deleted).bind asObject
  let id ← (find (ascii "id") status).bind asInt64
  return id.toUInt64

/-- The operations of a message: all users and tweets it holds, or one erasure. -/
def requests (around : Nat → Surroundings Time) (t : Value) : List (StoreOp Time) :=
  match asObject t with
  | none => []
  | some o =>
      if (find (ascii "text") o).isSome then
        let plan := planTweet readTime (around 0) o
          (planRetweeted readTime (fun n => around (n + 1)) o)
        plan.ops ++ plan.result.toOption.toList.map StoreOp.insertTweet
      else if (find (ascii "delete") o).isSome then (deletedId o).toList.map StoreOp.eraseTweet
      else []

end Plans

/-! ### Plans are authored -/

/-- A plan that ends with a tweet whose author is among its users, or because a property
is missing. -/
structure Sound (plan : Plan Time (TweetObject Time)) : Prop where
  authored : Authored (fun _ => False) plan.ops
  author : ∀ t, plan.result = .ok t → Inserts plan.ops t.userId
  failed : ∀ failure, plan.result = .error failure → failure = .propertiesNotFound

theorem ended_error {t : Option (TweetObject Time)} {failure : Failure}
    (h : ended t = .error failure) : failure = .propertiesNotFound := by
  cases t with
  | none => exact (Except.error.inj h).symm
  | some t => cases h

theorem sound_planTweet {readTime : Bytes → Time} {here : Surroundings Time} {o : Members}
    {retweeted : Option (Plan Time (TweetObject Time))}
    (hretweeted : ∀ plan, retweeted = some plan → Sound plan) :
    Sound (planTweet readTime here o retweeted) := by
  have hauthor : ∀ (known : UInt64 → Prop) (user : Option (TwitterUserObject Time)),
      Authored known (user.toList.map StoreOp.insertUser) := by
    intro known user
    cases user <;> trivial
  have hended : ∀ {user : Option (TwitterUserObject Time)} {id : Option UInt64}
      {t : TweetObject Time} {more : List (StoreOp Time)},
      ended (tweetMembers readTime here o user id) = .ok t →
      Inserts (user.toList.map StoreOp.insertUser ++ more) t.userId := by
    intro user id t more h
    cases hmembers : tweetMembers readTime here o user id with
    | none => simp [hmembers, ended] at h
    | some made =>
        rw [hmembers, ended, Except.ok.injEq] at h
        subst h
        obtain ⟨u, rfl, hid⟩ := tweetMembers_userId hmembers
        exact ⟨u, by simp, hid.symm⟩
  unfold planTweet
  match retweeted, hretweeted with
  | none, _ =>
      refine ⟨hauthor _ _, fun t ht => ?_, fun _ => ended_error⟩
      have hinserts := @hended _ _ t [] ht
      rwa [List.append_nil] at hinserts
  | some ⟨ops, .error failure⟩, hretweeted =>
      have hnested := hretweeted _ rfl
      exact ⟨(hauthor _ _).append (hnested.authored.mono nofun), nofun, hnested.failed⟩
  | some ⟨ops, .ok t⟩, hretweeted =>
      have hnested := hretweeted _ rfl
      refine ⟨(hauthor _ _).append ?_, fun t ht => hended ht, fun _ => ended_error⟩
      refine (hnested.authored.mono nofun).append ⟨Or.inr (hnested.author t rfl), trivial⟩

mutual

theorem sound_planRetweeted (readTime : Bytes → Time) (around : Nat → Surroundings Time) :
    ∀ (o : Members) (plan : Plan Time (TweetObject Time)),
      planRetweeted readTime around o = some plan → Sound plan
  | [], _, h => nomatch h
  | member :: o, plan, h => by
      rw [planRetweeted] at h
      split_ifs at h
      · exact sound_planMember readTime around member plan h
      · exact sound_planRetweeted readTime around o plan h

theorem sound_planMember (readTime : Bytes → Time) (around : Nat → Surroundings Time) :
    ∀ (member : Bytes × Value) (plan : Plan Time (TweetObject Time)),
      planMember readTime around member = some plan → Sound plan
  | (_, value), plan, h => sound_planValue readTime around value plan h

theorem sound_planValue (readTime : Bytes → Time) (around : Nat → Surroundings Time) :
    ∀ (value : Value) (plan : Plan Time (TweetObject Time)),
      planValue readTime around value = some plan → Sound plan
  | .array _, _, h => nomatch h
  | .string _, _, h => nomatch h
  | .int _, _, h => nomatch h
  | .real _, _, h => nomatch h
  | .object o, plan, h => by
      cases h
      exact sound_planTweet (sound_planRetweeted readTime (fun n => around (n + 1)) o)
  | .bool _, _, h => nomatch h
  | .null, _, h => nomatch h

end

/-- In the operations of a message every tweet stands behind its author. -/
theorem authored_requests (readTime : Bytes → Time) (around : Nat → Surroundings Time)
    (t : Value) : Authored (fun _ => False) (requests readTime around t) := by
  unfold requests
  cases asObject t with
  | none => trivial
  | some o =>
      simp only
      split_ifs
      · have hsound := @sound_planTweet _ readTime (around 0) o _
          (sound_planRetweeted readTime (fun n => around (n + 1)) o)
        apply hsound.authored.append
        cases hresult : (planTweet readTime (around 0) o
            (planRetweeted readTime (fun n => around (n + 1)) o)).result with
        | error failure => trivial
        | ok made => exact ⟨Or.inr (hsound.author made hresult), trivial⟩
      · cases deletedId o <;> trivial
      · trivial

end BlackCircle.Twitter.Integrity
