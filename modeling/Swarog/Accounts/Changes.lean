import Swarog.Accounts.Sessions

/-!
# What a step does to the committed rows

Only the end of a transaction changes committed rows, apart from `begin_delete`,
which is a transaction of its own.  For each table, one inductive predicate lists
the ways in which the committed row under a key may change in a step, with what
was committed before.  All invariants about committed rows are split on these.
-/

namespace Swarog.Accounts

open Pg

namespace State

variable {s : State} {a : Act} {t : Sess}

/-- The change of a refresh token. -/
inductive TokenChange (s : State) (k : String) : Act → Option TokenRow → Prop
  | same (a : Act) : TokenChange s k a (s.refreshTokens.committed k)
  | born (t : Sess) (l : Login) (id : Uuid) (created : Option String) (family : Uuid)
      (token : String)
      (hnone : s.refreshTokens.committed k = none) :
      TokenChange s k (.commitLogin t l id created family k token)
        (some (TokenRow.first id family l.now))
  | consumed (t : Sess) (r : Refresh) (row : TokenRow) (successor token : String)
      (hk : r.token = k)
      (hrow : s.refreshTokens.committed k = some row) :
      TokenChange s k (.commitRefresh t r row successor true token)
        (some (row.consume r.now r.successor))
  | succeeded (t : Sess) (r : Refresh) (row : TokenRow) (successor token : String)
      (hk : r.successor = k)
      (hnone : s.refreshTokens.committed k = none) :
      TokenChange s k (.commitRefresh t r row successor true token) (some row.successor)
  | revoked (t : Sess) (r : Refresh) (row : TokenRow)
      (hrow : s.refreshTokens.committed k = some row) :
      TokenChange s k (.commitRevoke t r row.family) none
  | erased (t : Sess) (d : Delete) (prow : PlayerRow) (row : TokenRow)
      (hrow : s.refreshTokens.committed k = some row)
      (hplayer : row.player = d.player) :
      TokenChange s k (.commitDelete t d prow) none
  | pruned (t : Sess) (now : Nat) (row : TokenRow)
      (hrow : s.refreshTokens.committed k = some row)
      (hexpired : row.expiresAt ≤ now) :
      TokenChange s k (.commitPrune t now) none

theorem Holds.token_change (h : s.Holds) (en : s.enabled a) (k : String) :
    TokenChange s k a ((s.effect a).refreshTokens.committed k) := by
  refine (tokens_does en).change (P := TokenChange s k a) en h.tokens (.same a) (fun hq ho => ?_)
  cases a with
  | commitLogin t l id created family _ token =>
    refine (ho t rfl).commit_one ?_ (.same _)
    rintro rfl hnone
    exact .born t l id created family token hnone
  | commitRefresh t r row successor rotated token =>
    cases rotated with
    | false => exact (ho t rfl).commit_nothing (.same _)
    | true =>
      refine (ho t rfl).commit_elim ?_ (fun _ _ hd => hd.elim) (.same _)
      intro _ hw hkey hbase
      rcases List.mem_cons.1 hw with rfl | hw
      · exact .consumed t r row successor token hkey hbase
      · cases List.mem_singleton.1 hw
        exact .succeeded t r row successor token hkey hbase
  | commitRevoke t r =>
    refine (ho t rfl).commit_deleting ?_ (.same _)
    rintro row hrow rfl
    exact .revoked t r row hrow
  | commitDelete t d prow =>
    refine (ho t rfl).commit_deleting ?_ (.same _)
    intro row hrow hplayer
    exact .erased t d prow row hrow hplayer
  | commitPrune t now =>
    refine (ho t rfl).commit_deleting ?_ (.same _)
    intro row hrow hexpired
    exact .pruned t now row hrow hexpired
  | commitLink t | commitDeny t => exact (ho t rfl).commit_nothing (.same _)
  | beginDelete => exact .same _
  | _ => cases hq

/-- The change of an access token. -/
inductive SessionChange (s : State) (k : String) : Act → Option SessionRow → Prop
  | same (a : Act) : SessionChange s k a (s.sessions.committed k)
  | opened (t : Sess) (l : Login) (id : Uuid) (created : Option String) (family : Uuid)
      (tok : String)
      (hnone : s.sessions.committed k = none) :
      SessionChange s k (.commitLogin t l id created family tok k)
        (some (SessionRow.access id family l.now))
  | renewed (t : Sess) (r : Refresh) (row : TokenRow) (successor : String) (rotated : Bool)
      (hnone : s.sessions.committed k = none) :
      SessionChange s k (.commitRefresh t r row successor rotated k)
        (some (SessionRow.access row.player row.family r.now))
  | revoked (t : Sess) (r : Refresh) (row : SessionRow)
      (hrow : s.sessions.committed k = some row) :
      SessionChange s k (.commitRevoke t r row.family) none
  | erased (t : Sess) (d : Delete) (prow : PlayerRow) (row : SessionRow)
      (hrow : s.sessions.committed k = some row)
      (hplayer : row.player = d.player) :
      SessionChange s k (.commitDelete t d prow) none
  | pruned (t : Sess) (now : Nat) (row : SessionRow)
      (hrow : s.sessions.committed k = some row)
      (hexpired : row.expiresAt ≤ now) :
      SessionChange s k (.commitPrune t now) none

theorem Holds.session_change (h : s.Holds) (en : s.enabled a) (k : String) :
    SessionChange s k a ((s.effect a).sessions.committed k) := by
  refine (sessions_does en).change (P := SessionChange s k a) en h.sessions (.same a)
    (fun hq ho => ?_)
  cases a with
  | commitLogin t l id created family tok =>
    refine (ho t rfl).commit_one ?_ (.same _)
    rintro rfl hnone
    exact .opened t l id created family tok hnone
  | commitRefresh t r row successor rotated =>
    refine (ho t rfl).commit_one ?_ (.same _)
    rintro rfl hnone
    exact .renewed t r row successor rotated hnone
  | commitRevoke t r =>
    refine (ho t rfl).commit_deleting ?_ (.same _)
    rintro row hrow rfl
    exact .revoked t r row hrow
  | commitDelete t d prow =>
    refine (ho t rfl).commit_deleting ?_ (.same _)
    intro row hrow hplayer
    exact .erased t d prow row hrow hplayer
  | commitPrune t now =>
    refine (ho t rfl).commit_deleting ?_ (.same _)
    intro row hrow hexpired
    exact .pruned t now row hrow hexpired
  | commitLink t | commitDeny t => exact (ho t rfl).commit_nothing (.same _)
  | beginDelete => exact .same _
  | _ => cases hq

/-- The change of an identity. -/
inductive IdentityChange (s : State) (k : String × String) : Act → Option IdentityRow → Prop
  | same (a : Act) : IdentityChange s k a (s.identities.committed k)
  | registered (t : Sess) (l : Login) (id : Uuid) (disc : String) (family : Uuid)
      (tok token : String)
      (hk : l.key = k)
      (hnone : s.identities.committed k = none) :
      IdentityChange s k (.commitLogin t l id (some disc) family tok token) (some ⟨id⟩)
  | linked (t : Sess) (l : Link) (promoted : Bool)
      (hk : l.key = k)
      (hnone : s.identities.committed k = none) :
      IdentityChange s k (.commitLink t l .linked promoted) (some ⟨l.player⟩)
  | erased (t : Sess) (d : Delete) (prow : PlayerRow) (row : IdentityRow)
      (hrow : s.identities.committed k = some row)
      (hplayer : row.player = d.player) :
      IdentityChange s k (.commitDelete t d prow) none

theorem Holds.identity_change (h : s.Holds) (en : s.enabled a) (k : String × String) :
    IdentityChange s k a ((s.effect a).identities.committed k) := by
  refine (identities_does en).change (P := IdentityChange s k a) en h.identities (.same a)
    (fun hq ho => ?_)
  cases a with
  | commitLogin t l id created family tok token =>
    cases created with
    | none => exact (ho t rfl).commit_nothing (.same _)
    | some disc =>
      refine (ho t rfl).commit_one ?_ (.same _)
      intro hk hnone
      exact .registered t l id disc family tok token hk hnone
  | commitLink t l outcome promoted =>
    cases outcome with
    | alreadyLinked => exact (ho t rfl).commit_nothing (.same _)
    | linked =>
      refine (ho t rfl).commit_one ?_ (.same _)
      intro hk hnone
      exact .linked t l promoted hk hnone
  | commitDelete t d prow =>
    refine (ho t rfl).commit_deleting ?_ (.same _)
    intro row hrow hplayer
    exact .erased t d prow row hrow hplayer
  | commitRefresh t | commitRevoke t | commitDeny t | commitPrune t =>
    exact (ho t rfl).commit_nothing (.same _)
  | beginDelete => exact .same _
  | _ => cases hq

/-- The change of a player. -/
inductive PlayerChange (s : State) (k : Uuid) : Act → Option PlayerRow → Prop
  | same (a : Act) : PlayerChange s k a (s.players.committed k)
  | created (t : Sess) (l : Login) (disc : String) (family : Uuid) (tok token : String)
      (hnone : s.players.committed k = none) :
      PlayerChange s k (.commitLogin t l k (some disc) family tok token) (some (l.player disc))
  | erased (t : Sess) (d : Delete) (prow : PlayerRow)
      (hk : d.player = k)
      (hsome : s.players.committed k ≠ none) :
      PlayerChange s k (.commitDelete t d prow) none

theorem Holds.player_change (h : s.Holds) (en : s.enabled a) (k : Uuid) :
    PlayerChange s k a ((s.effect a).players.committed k) := by
  refine (h.players_does en).change (P := PlayerChange s k a) en h.players (.same a)
    (fun hq ho => ?_)
  cases a with
  | commitLogin t l _ created family tok token =>
    cases created with
    | none => exact (ho t rfl).commit_nothing (.same _)
    | some disc =>
      refine (ho t rfl).commit_one ?_ (.same _)
      rintro rfl hnone
      exact .created t l disc family tok token hnone
  | commitDelete t d prow =>
    refine (ho t rfl).commit_one ?_ (.same _)
    rintro hk ⟨row, hrow, -⟩
    exact .erased t d prow hk (by rw [hrow]; exact Option.some_ne_none row)
  | commitLink t | commitRefresh t | commitRevoke t | commitDeny t | commitPrune t =>
    exact (ho t rfl).commit_nothing (.same _)
  | beginDelete => exact .same _
  | _ => cases hq

/-- The change of a handle. -/
inductive HandleChange (s : State) (k : String × String) : Act → Option HandleRow → Prop
  | same (a : Act) : HandleChange s k a (s.handles.committed k)
  | claimed (t : Sess) (l : Login) (id : Uuid) (disc : String) (family : Uuid)
      (tok token : String)
      (hk : (l.player disc).pair = k)
      (hnone : s.handles.committed k = none) :
      HandleChange s k (.commitLogin t l id (some disc) family tok token) (some ⟨some id⟩)
  | reserved (t : Sess) (d : Delete) (row : PlayerRow)
      (hk : row.pair = k) :
      HandleChange s k (.commitDelete t d row) (some ⟨none⟩)

theorem Holds.handle_change (h : s.Holds) (en : s.enabled a) (k : String × String) :
    HandleChange s k a ((s.effect a).handles.committed k) := by
  refine (handles_does en).change (P := HandleChange s k a) en h.handles (.same a) (fun hq ho => ?_)
  cases a with
  | commitLogin t l id created family tok token =>
    cases created with
    | none => exact (ho t rfl).commit_nothing (.same _)
    | some disc =>
      refine (ho t rfl).commit_one ?_ (.same _)
      intro hk hnone
      exact .claimed t l id disc family tok token hk hnone
  | commitDelete t d row =>
    refine (ho t rfl).commit_one ?_ (.same _)
    intro hk _
    exact .reserved t d row hk
  | commitLink t | commitRefresh t | commitRevoke t | commitDeny t | commitPrune t =>
    exact (ho t rfl).commit_nothing (.same _)
  | beginDelete => exact .same _
  | _ => cases hq

/-- The change of a receipt. -/
inductive ReceiptChange (s : State) (k : Uuid) : Act → Option ReceiptRow → Prop
  | same (a : Act) : ReceiptChange s k a (s.receipts.committed k)
  | written (t : Sess) (d : Delete) (row : PlayerRow)
      (hk : d.player = k)
      (hnone : s.receipts.committed k = none) :
      ReceiptChange s k (.commitDelete t d row) (some (d.receipt row))

theorem Holds.receipt_change (h : s.Holds) (en : s.enabled a) (k : Uuid) :
    ReceiptChange s k a ((s.effect a).receipts.committed k) := by
  refine (receipts_does en).change (P := ReceiptChange s k a) en h.receipts (.same a)
    (fun hq ho => ?_)
  cases a with
  | commitDelete t d row =>
    refine (ho t rfl).commit_one ?_ (.same _)
    intro hk hnone
    exact .written t d row hk hnone
  | commitLogin t | commitLink t | commitRefresh t | commitRevoke t | commitDeny t
  | commitPrune t => exact (ho t rfl).commit_nothing (.same _)
  | beginDelete => exact .same _
  | _ => cases hq

end State
end Swarog.Accounts
