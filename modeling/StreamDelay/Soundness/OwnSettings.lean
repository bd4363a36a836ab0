import StreamDelay.Foundations.IpText
import StreamDelay.Proofs.SoleCopy
import StreamDelay.Soundness.OwnServer

/-! # OBS's own stream settings are never lost

Whatever fails, and wherever a request is dropped, an OBS that the wizard is used with has its own stream settings, or
they are backed up: the settings name the backup, and the secret store holds it. The wizard recognises what it set
itself, at any address of this computer, and does not back that up in their place.
-/

namespace StreamDelay.Control

open Foundations Foundations.Program Config Config.Secrets Rtmp

variable {ν μ : Type} [DecidableEq μ] {records : Records} {format : Format ObsRest μ} {backups : BackupFormat ν}
  {here : Installation} {addresses : IpAddr → Prop} {obs : Text} {own : StreamSettings ν} {w w' t : ObsWorld ν}

/-! ## What is kept -/

/-- The settings name a backup of `own`, from the OBS, and the secret store holds it. -/
structure BackedUp (backups : BackupFormat ν) (obs : Text) (own : StreamSettings ν) (w : ObsWorld ν) : Prop where
  named : w.app.config.rest.obs.backup = some ⟨own.serviceType, some obs, none⟩
  stored : Sole OBS_BACKUP (backups.encode obs own.settings) w.app.secrets

/-- The OBS has its own settings, which may be backed up. -/
structure HasOwn (backups : BackupFormat ν) (obs : Text) (own : StreamSettings ν) (w : ObsWorld ν) : Prop where
  has : w.obs obs = own
  backup : w.app.config.rest.obs.backup = none ∨ BackedUp backups obs own w

/-- The OBS streams to stream-delay, at one of this computer's addresses, and its own settings are backed up. -/
structure SetUp (backups : BackupFormat ν) (here : Installation) (addresses : IpAddr → Prop) (obs : Text)
    (own : StreamSettings ν) (w : ObsWorld ν) : Prop where
  backup : BackedUp backups obs own w
  custom : ∃ ip key, addresses ip ∧ w.obs obs = .custom (here.server ip) key

/-- The settings are not what stream-delay sets an OBS to: they have no application of its name on a custom server, or
none of its own keys, of which `obsKey` is one. -/
def Foreign (own : StreamSettings ν) (obsKey : Text) : Prop :=
  own.liveUrl = none ∨ (own.key.any fun key => ownKey key obsKey) = false

theorem Foreign.same {c c' : ObsRest} (foreign : Foreign own c.obsKey) (key : c'.ingestKey = c.ingestKey) :
    Foreign own c'.obsKey := by
  unfold ObsRest.obsKey
  rw [key]
  exact foreign

/-- The settings are about the OBS, and its own stream settings are in it or backed up. -/
structure Safe (backups : BackupFormat ν) (here : Installation) (addresses : IpAddr → Prop) (obs : Text)
    (own : StreamSettings ν) (w : ObsWorld ν) : Prop where
  about : w.app.config.rest.obs.id = obs
  foreign : Foreign own w.app.config.rest.obsKey
  safe : HasOwn backups obs own w ∨ SetUp backups here addresses obs own w

/-- What may happen between the calls of a request leaves the OBS, what the settings say of it, and the backup, and no
key becomes stream-delay's that OBS has by itself. -/
structure Meanwhile (obs : Text) (own : StreamSettings ν) (w w' : ObsWorld ν) : Prop where
  foreign : Foreign own w.app.config.rest.obsKey → Foreign own w'.app.config.rest.obsKey
  obs : w'.obs obs = w.obs obs
  settings : w'.app.config.rest.obs = w.app.config.rest.obs
  backup : Alike OBS_BACKUP w.app.secrets w'.app.secrets

namespace Meanwhile

theorem refl (w : ObsWorld ν) : Meanwhile obs own w w := ⟨id, rfl, rfl, .refl ..⟩

theorem trans (first : Meanwhile obs own w w') (second : Meanwhile obs own w' t) : Meanwhile obs own w t :=
  ⟨second.foreign ∘ first.foreign, second.obs.trans first.obs, second.settings.trans first.settings,
    first.backup.trans second.backup⟩

theorem backedUp (happened : Meanwhile obs own w w') (backup : BackedUp backups obs own w) :
    BackedUp backups obs own w' :=
  ⟨by rw [happened.settings]; exact backup.named, backup.stored.alike happened.backup⟩

private theorem hasOwn (happened : Meanwhile obs own w w') (has : HasOwn backups obs own w) :
    HasOwn backups obs own w' :=
  ⟨happened.obs.trans has.has, has.backup.imp (fun none => by rw [happened.settings]; exact none) happened.backedUp⟩

theorem setUp (happened : Meanwhile obs own w w') (up : SetUp backups here addresses obs own w) :
    SetUp backups here addresses obs own w' :=
  ⟨happened.backedUp up.backup, by rw [happened.obs]; exact up.custom⟩

theorem safe (happened : Meanwhile obs own w w') (safe : Safe backups here addresses obs own w) :
    Safe backups here addresses obs own w' :=
  ⟨by rw [happened.settings]; exact safe.about, happened.foreign safe.foreign,
    safe.safe.imp happened.hasOwn happened.setUp⟩

end Meanwhile

/-! ## The calls -/

/-- Answers that keep to the addresses: those this computer has are found to be its own. -/
structure Reception.Keeps (addresses : IpAddr → Prop) (c : Reception) : Prop where
  own : ∀ ip, addresses ip → c.isLocal ip.text = true
  found : ∀ ip, c.ip = some ip → addresses ip

/-- A call that changes nothing. -/
def WizardCall.Quiet : WizardCall ν → Prop
  | .setStream _ _ | .changeAll _ _ _ _ | .change _ | .deleteSecret _ => False
  | _ => True

variable (records format backups here addresses obs own)

abbrev Serves : Program.Service (WizardCall ν) WizardCall.Answer (ObsWorld ν) :=
  (ObsWorld.office records format backups here).service (Reception.Keeps addresses) (Meanwhile obs own)

variable {records format backups here addresses obs own}

private theorem quiet_serves {i : WizardCall ν} (quiet : i.Quiet) {r : i.Answer}
    (served : Serves records format backups here addresses obs own i w t r) : Meanwhile obs own w t := by
  obtain ⟨u, c, happened, -, answered⟩ := served
  cases i with
  | setStream | changeAll | change | deleteSecret => exact absurd quiet id
  | config | savedUrl | secret | isLocal | localIpTowards | connect | info | streaming | addBrowserSource =>
    obtain rfl : u = t := congrArg Prod.fst answered
    exact happened

/-- A result that says that OBS's settings were put back is right. -/
def PutBack (obs : Text) (own : StreamSettings ν) (r : Except WizardError WizardReply) (w : ObsWorld ν) : Prop :=
  r = .ok .restored → w.obs obs = own

variable (records format backups here addresses obs own) in
/-- A program of the wizard keeps OBS's own settings safe, from a state on. -/
abbrev Guards (p : Wizard ν WizardReply) (w : ObsWorld ν) : Prop :=
  p.Always (Serves records format backups here addresses obs own) (Safe backups here addresses obs own)
    (PutBack obs own) w

/-- What is known while a request is served: the settings it has read are about the same OBS as those in effect. -/
structure Knows (backups : BackupFormat ν) (here : Installation) (addresses : IpAddr → Prop) (obs : Text)
    (own : StreamSettings ν) (config : ObsAppSettings) (w : ObsWorld ν) : Prop where
  safe : Safe backups here addresses obs own w
  config : config.rest.obs = w.app.config.rest.obs

theorem Knows.later {config : ObsAppSettings} (knows : Knows backups here addresses obs own config w)
    (happened : Meanwhile obs own w w') : Knows backups here addresses obs own config w' :=
  ⟨happened.safe knows.safe, knows.config.trans happened.settings.symm⟩

theorem Knows.id {config : ObsAppSettings} (knows : Knows backups here addresses obs own config w) :
    config.rest.obs.id = obs := by
  rw [knows.config]
  exact knows.safe.about

/-- A program that only asks leaves everything. -/
theorem asks {α : Type} {p : Program (WizardCall ν) WizardCall.Answer α} (only : p.Only WizardCall.Quiet)
    (safe : Safe backups here addresses obs own w) :
    p.Always (Serves records format backups here addresses obs own) (Safe backups here addresses obs own)
      (fun _ t => Meanwhile obs own w t) w :=
  only.always Meanwhile.trans Meanwhile.safe (fun _ quiet _ _ _ => quiet_serves quiet) (.refl w) safe

/-- A request that has failed has put nothing back. -/
theorem guards_error {e : WizardError} (safe : Safe backups here addresses obs own w) :
    Guards records format backups here addresses obs own (done (.error e)) w := ⟨safe, nofun⟩

private theorem guards_asks {α : Type} {p : Program (WizardCall ν) WizardCall.Answer α} {k : α → Wizard ν WizardReply}
    (only : p.Only WizardCall.Quiet) (safe : Safe backups here addresses obs own w)
    (rest : ∀ a t, Meanwhile obs own w t → Guards records format backups here addresses obs own (k a) t) :
    Guards records format backups here addresses obs own (p.andThen k) w :=
  always_andThen (asks only safe) rest

private theorem guards_orFailAs {α ε : Type} {p : Program (WizardCall ν) WizardCall.Answer (Except ε α)}
    {as : ε → WizardError}
    {k : α → Wizard ν WizardReply} (only : p.Only WizardCall.Quiet) (safe : Safe backups here addresses obs own w)
    (rest : ∀ a t, Meanwhile obs own w t → Guards records format backups here addresses obs own (k a) t) :
    Guards records format backups here addresses obs own (Wizard.orFailAs p as k) w := by
  refine guards_asks only safe fun a t happened => ?_
  cases a with
  | ok a => exact rest a t happened
  | error e => exact guards_error (happened.safe safe)

private theorem guards_orFail {α : Type} {p : Wizard ν α} {k : α → Wizard ν WizardReply}
    (only : p.Only WizardCall.Quiet)
    (safe : Safe backups here addresses obs own w)
    (rest : ∀ a t, Meanwhile obs own w t → Guards records format backups here addresses obs own (k a) t) :
    Guards records format backups here addresses obs own (p.orFail k) w := by
  have same : p.orFail k = Wizard.orFailAs p (fun e => e) k := rfl
  rw [same]
  exact guards_orFailAs only safe rest

/-- The settings a request reads are those in effect. -/
theorem config_serves {config : ObsAppSettings} (safe : Safe backups here addresses obs own w)
    (served : Serves records format backups here addresses obs own .config w t config) :
    Meanwhile obs own w t ∧ Knows backups here addresses obs own config t ∧ Foreign own config.rest.obsKey := by
  have happened := quiet_serves (i := .config) trivial served
  obtain ⟨u, c, -, -, answered⟩ := served
  obtain ⟨rfl, rfl⟩ := Prod.mk.inj answered
  exact ⟨happened, ⟨happened.safe safe, rfl⟩, (happened.safe safe).foreign⟩

/-! ## What the calls that change something leave -/

private theorem setStream_serves {id : Text} {s : StreamSettings ν} {r : (WizardCall.setStream id s).Answer}
    (served : Serves records format backups here addresses obs own (.setStream id s) w t r) :
    ∃ u : ObsWorld ν, Meanwhile obs own w u ∧
      (t = { u with obs := Function.update u.obs id s } ∨ t = u ∧ ∃ e, r = .error e) := by
  obtain ⟨u, c, happened, -, answered⟩ := served
  refine ⟨u, happened, ?_⟩
  have answered : ObsWorld.answer records format c u (.setStream id s) = (t, r) := answered
  unfold ObsWorld.answer at answered
  dsimp only at answered
  cases fault : c.fault with
  | none =>
    rw [fault] at answered
    exact .inl (congrArg Prod.fst answered).symm
  | some e =>
    rw [fault] at answered
    obtain ⟨state, result⟩ := Prod.mk.inj answered
    split at state
    · exact .inl state.symm
    · exact .inr ⟨state.symm, e, result.symm⟩

/-- A change of settings that leaves what they say of the OBS and its backup, and the backup itself. -/
theorem changeAll_safe {names : List String} {update : Faults → Faults → Secrets → Secrets × Except SecretError Unit}
    {key : KeyChange} {edit : ObsAppSettings → ObsAppSettings}
    {r : (WizardCall.changeAll (ν := ν) names update key edit).Answer} (unnamed : OBS_BACKUP ∉ names)
    (updated : ∀ f f' s, Alike OBS_BACKUP s (update f f' s).1)
    (edited : ∀ c : ObsAppSettings, (edit c).rest.obs.id = obs ∧ (edit c).rest.obs.backup = c.rest.obs.backup ∧
      (edit c).rest.ingestKey = c.rest.ingestKey)
    (safe : Safe backups here addresses obs own w)
    (served : Serves records format backups here addresses obs own (.changeAll names update key edit) w t r) :
    Safe backups here addresses obs own t := by
  obtain ⟨u, c, happened, -, answered⟩ := served
  obtain rfl := congrArg Prod.fst answered
  have safe := happened.safe safe
  have alike : Alike OBS_BACKUP u.app.secrets
      (ObsWorld.changeAll records format c names update key edit u.app).1.secrets :=
    changeAll_alike (by rw [List.map_map]; simpa [Function.comp_def] using unnamed) (by decide) (updated ..)
  have same : (ObsWorld.changeAll records format c names update key edit u.app).1.config.rest.obs.id = obs ∧
      (ObsWorld.changeAll records format c names update key edit u.app).1.config.rest.obs.backup =
        u.app.config.rest.obs.backup ∧
      (ObsWorld.changeAll records format c names update key edit u.app).1.config.rest.ingestKey =
        u.app.config.rest.ingestKey := by
    rcases all_cases records format (names.map fun name => ⟨name, c.take name, c.restore name⟩)
        (update c.first c.second) c.attempt key (fun settings => (edit settings, ())) u.app with
      ⟨-, changed, -⟩ | ⟨-, kept, -⟩
    · rw [changed]
      exact edited _
    · rw [kept]
      exact ⟨safe.about, rfl, rfl⟩
  have backed (backup : BackedUp backups obs own u) : BackedUp backups obs own
      { u with app := (ObsWorld.changeAll records format c names update key edit u.app).1 } :=
    ⟨same.2.1.trans backup.named, backup.stored.alike alike⟩
  exact ⟨same.1, safe.foreign.same same.2.2, safe.safe.imp (fun has => ⟨has.has, has.backup.imp same.2.1.trans backed⟩)
    fun up => ⟨backed up.backup, up.custom⟩⟩

/-- Backing up OBS's own settings: it still has them, and if nothing failed they are backed up. -/
theorem changeAll_backs {names : List String} {update : Faults → Faults → Secrets → Secrets × Except SecretError Unit}
    {key : KeyChange} {edit : ObsAppSettings → ObsAppSettings}
    {r : (WizardCall.changeAll (ν := ν) names update key edit).Answer}
    (saves : ∀ f f' s, (update f f' s).2 = .ok () → Sole OBS_BACKUP (backups.encode obs own.settings) (update f f' s).1)
    (again : ∀ f f' s, Sole OBS_BACKUP (backups.encode obs own.settings) s →
      Sole OBS_BACKUP (backups.encode obs own.settings) (update f f' s).1)
    (edited : ∀ c : ObsAppSettings,
      (edit c).rest.obs = { c.rest.obs with backup := some ⟨own.serviceType, some obs, none⟩ } ∧
        (edit c).rest.ingestKey = c.rest.ingestKey)
    (safe : Safe backups here addresses obs own w) (has : HasOwn backups obs own w)
    (served : Serves records format backups here addresses obs own (.changeAll names update key edit) w t r) :
    Safe backups here addresses obs own t ∧ (r = .ok () → BackedUp backups obs own t) := by
  obtain ⟨u, c, happened, -, answered⟩ := served
  obtain ⟨rfl, rfl⟩ := Prod.mk.inj answered
  have has := happened.hasOwn has
  replace safe := happened.safe safe
  rcases all_cases records format (names.map fun name => ⟨name, c.take name, c.restore name⟩)
      (update c.first c.second) c.attempt key (fun settings => (edit settings, ())) u.app with
    ⟨-, changed, updated, alike⟩ | ⟨failed, kept, -⟩
  · have backup : BackedUp backups obs own
        { u with app := (ObsWorld.changeAll records format c names update key edit u.app).1 } := by
      refine ⟨?_, (saves _ _ _ updated).alike (alike OBS_BACKUP (by decide))⟩
      exact (congrArg (fun c : ObsAppSettings => c.rest.obs.backup) changed).trans
        (congrArg ObsConfig.backup (edited u.app.config).1)
    refine ⟨⟨?_, safe.foreign.same ?_, .inl ⟨has.has, .inr backup⟩⟩, fun _ => backup⟩
    · exact (congrArg (fun c : ObsAppSettings => c.rest.obs.id) changed).trans
        ((congrArg ObsConfig.id (edited u.app.config).1).trans safe.about)
    · exact (congrArg (fun c : ObsAppSettings => c.rest.ingestKey) changed).trans (edited u.app.config).2
  · have named := congrArg (fun c : ObsAppSettings => c.rest.obs.backup) kept
    refine ⟨⟨(congrArg (fun c : ObsAppSettings => c.rest.obs.id) kept).trans safe.about,
      safe.foreign.same (congrArg (fun c : ObsAppSettings => c.rest.ingestKey) kept), .inl ⟨has.has,
        has.backup.imp named.trans fun backup => ⟨named.trans backup.named, ?_⟩⟩⟩, fun done => ?_⟩
    · exact changeAll_sole backup.stored (by decide) (again _ _ _ backup.stored)
    · refine absurd ?_ failed
      have done : (ObsWorld.changeAll records format c names update key edit u.app).2.map (fun _ => ()) = .ok () := done
      unfold ObsWorld.changeAll at done
      generalize (AppState.changeSettingsAndSecrets records format _ _ _ _ _ u.app).2 = answer at done ⊢
      cases answer with
      | ok _ => trivial
      | error e => contradiction

/-! ## The requests -/

private theorem guards_withOverlay {id : Text} {overlay : Option Text} {imported : Bool} {messages : List Text}
    (safe : Safe backups here addresses obs own w) :
    Guards records format backups here addresses obs own (Wizard.withOverlay id overlay imported messages) w := by
  unfold Wizard.withOverlay
  cases overlay with
  | none => exact ⟨safe, nofun⟩
  | some url => exact guards_orFailAs ⟨trivial, fun _ => trivial⟩ safe fun change t happened =>
      ⟨happened.safe safe, nofun⟩

/-- OBS is pointed at stream-delay once its own settings are backed up. -/
theorem guards_setCustom {ip : IpAddr} {key : Text} {k : Wizard ν WizardReply}
    (safe : Safe backups here addresses obs own w)
    (backup : BackedUp backups obs own w) (address : addresses ip)
    (rest : ∀ t, Safe backups here addresses obs own t → Guards records format backups here addresses obs own k t) :
    Guards records format backups here addresses obs own (Wizard.setStream obs (.custom (here.server ip) key) k) w := by
  refine guards_orFailAs ⟨trivial, fun _ => trivial⟩ safe fun streaming u happened => ?_
  replace safe := happened.safe safe
  replace backup := happened.backedUp backup
  split
  · exact guards_error safe
  · have first : (perform (WizardCall.setStream obs (StreamSettings.custom (here.server ip) key))).Always
        (Serves records format backups here addresses obs own) (Safe backups here addresses obs own)
        (fun _ t => Safe backups here addresses obs own t) u := by
      refine ⟨safe, fun t r served => ?_⟩
      suffices after : Safe backups here addresses obs own t from ⟨after, after⟩
      obtain ⟨v, happened, rfl | ⟨rfl, -⟩⟩ := setStream_serves served
      · exact ⟨(happened.safe safe).about, (happened.safe safe).foreign,
          .inr ⟨⟨(happened.backedUp backup).named, (happened.backedUp backup).stored⟩,
          ip, key, address, Function.update_self ..⟩⟩
      · exact happened.safe safe
    refine always_andThen first fun a t safe => ?_
    cases a with
    | ok _ => exact rest t safe
    | error e => exact guards_error safe

private theorem serverForObs_always (config : ObsAppSettings) (reaches : addresses (reachable here.ingest))
    (safe : Safe backups here addresses obs own w) :
    (Wizard.serverForObs (ν := ν) here config).Always (Serves records format backups here addresses obs own)
      (Safe backups here addresses obs own)
      (fun r t => Meanwhile obs own w t ∧
        ∀ server, r = .ok server → ∃ ip, addresses ip ∧ server = here.server ip) w := by
  unfold Wizard.serverForObs
  refine ⟨safe, fun t own served => ?_⟩
  have happened := quiet_serves (i := .isLocal _) trivial served
  replace safe := happened.safe safe
  dsimp only
  unfold Wizard.fail
  split_ifs with atHome loopback unspecified
  · exact ⟨safe, happened, fun server same => ⟨_, reaches, (Except.ok.inj same).symm⟩⟩
  · exact ⟨safe, happened, nofun⟩
  · refine ⟨safe, fun u ip served => ?_⟩
    have later := quiet_serves (i := .localIpTowards _ _) trivial served
    obtain ⟨v, c, -, keeps, answered⟩ := served
    have found : c.ip = ip := congrArg Prod.snd answered
    cases ip with
    | none => exact ⟨later.safe safe, happened.trans later, nofun⟩
    | some ip =>
      exact ⟨later.safe safe, happened.trans later,
        fun server same => ⟨ip, keeps.found ip found, (Except.ok.inj same).symm⟩⟩
  · have same : reachable here.ingest = here.ingest := by
      unfold reachable
      split
      · next ip => exact absurd (by rw [ip]; decide) unspecified
      · next ip => exact absurd (by rw [ip]; decide) unspecified
      · rfl
    exact ⟨safe, happened, fun server own => ⟨_, same ▸ reaches, (Except.ok.inj own).symm⟩⟩

private theorem overlayForObs_only (config : ObsAppSettings) :
    (Wizard.overlayForObs (ν := ν) here config).Only WizardCall.Quiet := by
  unfold Wizard.overlayForObs
  refine ⟨trivial, fun own => ?_⟩
  dsimp only
  split_ifs
  · exact ⟨trivial, fun _ => trivial⟩
  · trivial
  · refine ⟨trivial, fun ip => ?_⟩
    cases ip <;> trivial
  · trivial

/-- Whether OBS streams to stream-delay already, at whatever address, is found out: OBS's own settings are not taken
for stream-delay's, nor the other way round. -/
theorem setUpBefore_always {config : ObsAppSettings} (positive : here.ingestPort ≠ 0)
    (small : here.ingestPort < 2 ^ 16) {obsKey : Text} (foreign : Foreign own obsKey)
    (knows : Knows backups here addresses obs own config w) :
    (Wizard.setUpBefore (w.obs obs) config obsKey).Always (Serves records format backups here addresses obs own)
      (Safe backups here addresses obs own)
      (fun before t => Meanwhile obs own w t ∧
        if before then BackedUp backups obs own t else HasOwn backups obs own t) w := by
  have safe := knows.safe
  unfold Wizard.setUpBefore
  rcases safe.safe with has | ⟨backup, ip, key, address, custom⟩
  · rw [has.has]
    cases live : own.liveUrl with
    | none => exact ⟨safe, .refl w, has⟩
    | some url =>
      have other : (own.key.any fun key => ownKey key obsKey) = false :=
        foreign.resolve_left fun none => by rw [live] at none; contradiction
      dsimp only
      rw [other, if_neg Bool.false_ne_true]
      split
      · next kept =>
        have backup : BackedUp backups obs own w := has.backup.resolve_left fun none => by
          unfold backedUp at kept
          rw [knows.config, none] at kept
          contradiction
        refine ⟨safe, fun t local_ served => ?_⟩
        have happened := quiet_serves (i := .isLocal _) trivial served
        refine ⟨happened.safe safe, happened, ?_⟩
        cases local_ with
        | true => exact happened.backedUp backup
        | false => exact happened.hasOwn has
      · exact ⟨safe, .refl w, has⟩
  · obtain ⟨url, live, host⟩ : ∃ url : RtmpUrl,
        (StreamSettings.custom (ν := ν) (here.server ip) key).liveUrl = some url ∧ url.host = ip.text :=
      custom_liveUrl positive small key
    rw [custom, live]
    dsimp only
    have kept : backedUp config = true := by
      unfold backedUp
      rw [knows.id, knows.config, backup.named]
      exact decide_eq_true rfl
    rw [kept, if_pos rfl, host]
    split
    · exact ⟨safe, .refl w, backup⟩
    · refine ⟨safe, fun t local_ served => ?_⟩
      have happened := quiet_serves (i := .isLocal _) trivial served
      obtain ⟨u, c, -, keeps, answered⟩ := served
      obtain rfl : c.isLocal ip.text = local_ := congrArg Prod.snd answered
      refine ⟨happened.safe safe, happened, ?_⟩
      rw [keeps.own ip address, if_pos rfl]
      exact happened.backedUp backup

private theorem guards_firstTime {config : ObsAppSettings} {ip : IpAddr} {importKey : Bool} {obsKey : Text}
    {overlay : Option Text} (address : addresses ip) (knows : Knows backups here addresses obs own config w)
    (has : HasOwn backups obs own w) :
    Guards records format backups here addresses obs own
      (Wizard.firstTime backups importKey own (here.server ip) config obsKey overlay) w := by
  have id := knows.id
  have safe := knows.safe
  unfold Wizard.firstTime
  dsimp only
  rw [id]
  refine guards_asks (by split_ifs <;> first | exact ⟨trivial, fun _ => trivial⟩ | trivial) safe
    fun elsewhere t happened => ?_
  replace safe := happened.safe safe
  replace has := happened.hasOwn has
  split
  · exact guards_error safe
  refine guards_orFailAs (p := done _) trivial safe fun key u happened => ?_
  replace safe := happened.safe safe
  replace has := happened.hasOwn has
  refine always_andThen (Q := fun r v => Safe backups here addresses obs own v ∧
    (r = .ok () → BackedUp backups obs own v)) ⟨safe, fun v r served => ?_⟩ fun r v ended => ?_
  · have backs := changeAll_backs ?saves ?again ?edited safe has served
    · exact ⟨backs.1, backs⟩
    case saves =>
      intro f f' s saved
      split at saved
      · contradiction
      · next secrets stored =>
        have sole := sole_of_set (congrArg Prod.snd stored)
        rw [stored] at sole
        exact sole.alike ((delete_deletes f' OBS_BACKUP_KEY secrets).others (by decide))
    case again =>
      intro f f' s sole
      have sole := sole.set f
      split
      · next secrets e stored =>
        rwa [stored] at sole
      · next secrets stored =>
        rw [stored] at sole
        exact sole.alike ((delete_deletes f' OBS_BACKUP_KEY secrets).others (by decide))
    case edited =>
      intro c
      split_ifs <;> exact ⟨rfl, rfl⟩
  · cases r with
    | ok _ => exact guards_setCustom ended.1 (ended.2 rfl) address fun t safe => guards_withOverlay safe
    | error e => exact guards_error ended.1

private theorem passwordFor_only (config : ObsAppSettings) :
    (Wizard.passwordFor (ν := ν) records config).Only WizardCall.Quiet := ⟨trivial, fun _ => trivial⟩

private theorem guards_connectTo {config : ObsAppSettings} {password : Option Text} {k : Wizard ν WizardReply}
    (safe : Safe backups here addresses obs own w)
    (rest : ∀ t, Meanwhile obs own w t → Guards records format backups here addresses obs own k t) :
    Guards records format backups here addresses obs own (Wizard.connectTo config password k) w :=
  guards_orFailAs ⟨trivial, fun _ => trivial⟩ safe fun _ => rest

private theorem guards_configure {importKey addOverlay : Bool} (reaches : addresses (reachable here.ingest))
    (positive : here.ingestPort ≠ 0) (small : here.ingestPort < 2 ^ 16)
    (safe : Safe backups here addresses obs own w) :
    Guards records format backups here addresses obs own
      (Wizard.configure records backups here importKey addOverlay) w := by
  unfold Wizard.configure
  refine ⟨safe, fun t config served => ?_⟩
  obtain ⟨-, knows, -⟩ := config_serves safe served
  refine always_orFail (serverForObs_always config reaches knows.safe)
    (fun e u ended => ended.1.safe knows.safe) (fun server u ended => ?_) fun _ _ _ => nofun
  obtain ⟨ip, address, rfl⟩ := ended.2 server rfl
  replace knows := knows.later ended.1
  refine guards_orFail (p := if addOverlay then _ else _) ?_ knows.safe fun overlay v happened => ?_
  · split_ifs
    · refine (overlayForObs_only config).andThen fun answer => ?_
      cases answer <;> trivial
    · trivial
  replace knows := knows.later happened
  refine guards_asks (passwordFor_only config) knows.safe fun password w happened => ?_
  replace knows := knows.later happened
  refine guards_connectTo knows.safe fun t happened => ?_
  replace knows := knows.later happened
  dsimp only
  rw [knows.id]
  refine always_andThen (Q := fun r u => Meanwhile obs own t u ∧ ∀ info, r = .ok info → info.2 = u.obs obs)
    ⟨knows.safe, fun u r served => ?_⟩ fun r u ended => ?_
  · have happened := quiet_serves (i := .info obs) trivial served
    refine ⟨happened.safe knows.safe, happened, fun info got => ?_⟩
    obtain ⟨v, c, -, -, answered⟩ := served
    obtain ⟨rfl, rfl⟩ := Prod.mk.inj answered
    cases fault : c.fault with
    | none =>
      rw [fault] at got
      exact congrArg Prod.snd (Except.ok.inj got).symm
    | some e =>
      rw [fault] at got
      contradiction
  replace knows := knows.later ended.1
  cases r with
  | error e => exact guards_error knows.safe
  | ok info =>
    obtain ⟨streaming, s⟩ := info
    obtain rfl : s = u.obs obs := ended.2 _ rfl
    dsimp only
    split
    · exact guards_error knows.safe
    refine ⟨knows.safe, fun v linked served => ?_⟩
    obtain ⟨happened, -, foreign⟩ := config_serves knows.safe served
    rw [← happened.obs]
    replace knows := knows.later happened
    dsimp only
    split
    · exact guards_withOverlay knows.safe
    refine always_andThen (setUpBefore_always positive small foreign knows) fun before x ended => ?_
    have safe := ended.1.safe knows.safe
    cases before with
    | true =>
      refine guards_orFailAs (p := done _) trivial safe fun key y happened => ?_
      exact guards_setCustom (happened.safe safe) (happened.backedUp ended.2) address fun t safe =>
        guards_withOverlay safe
    | false =>
      have has : HasOwn backups obs own x := ended.2
      rw [← ended.1.obs, has.has]
      exact guards_firstTime address (knows.later ended.1) has

/-- What is read back as a backup of OBS's own settings are those settings. -/
theorem backupSettings_always (read : backups.decode (backups.encode obs own.settings) = some (obs, own.settings))
    (safe : Safe backups here addresses obs own w) (backup : BackedUp backups obs own w) :
    (Wizard.backupSettings backups ⟨own.serviceType, some obs, none⟩ obs).Always
      (Serves records format backups here addresses obs own) (Safe backups here addresses obs own)
      (fun r t => Meanwhile obs own w t ∧ ∀ settings, r = .ok settings → settings = own.settings) w := by
  unfold Wizard.backupSettings
  refine ⟨safe, fun t raw served => ?_⟩
  have happened := quiet_serves (i := .secret _) trivial served
  have held := (happened.backedUp backup).stored
  obtain ⟨u, c, -, -, answered⟩ := served
  obtain ⟨rfl, rfl⟩ := Prod.mk.inj answered
  have safe := happened.safe safe
  rcases held.value_cases c.access with none | some
  · rw [none]
    exact ⟨safe, happened, nofun⟩
  · rw [some]
    dsimp only [Option.bind_some]
    rw [read]
    dsimp only [Option.getD_some]
    rw [if_neg (not_not.mpr rfl)]
    refine ⟨safe, happened, fun settings got => ?_⟩
    rw [← Except.ok.inj got]
    cases own.settings <;> rfl

private theorem change_serves {edit : ObsAppSettings → ObsAppSettings} {r : (WizardCall.change (ν := ν) edit).Answer}
    (served : Serves records format backups here addresses obs own (.change edit) w t r) :
    t.obs obs = w.obs obs ∧ Alike OBS_BACKUP w.app.secrets t.app.secrets ∧
      ∃ config : ObsAppSettings, config.rest.obs = w.app.config.rest.obs ∧
        (Foreign own w.app.config.rest.obsKey → Foreign own config.rest.obsKey) ∧
        (t.app.config = edit config ∨ (∃ e, r = .error e) ∧ t.app.config = config) := by
  obtain ⟨u, c, happened, -, answered⟩ := served
  obtain ⟨rfl, rfl⟩ := Prod.mk.inj answered
  obtain ⟨alike, cases⟩ := locked_cases records format c.attempt .keep
    (fun settings => (edit settings, ())) u.app
  refine ⟨happened.obs, happened.backup.trans (alike OBS_BACKUP (by decide)), u.app.config, happened.settings,
    happened.foreign, ?_⟩
  rcases cases with ⟨-, changed⟩ | ⟨failed, kept⟩
  · exact .inl changed
  · refine .inr ⟨?_, kept⟩
    generalize (AppState.changeSettingsLocked records format c.attempt .keep
      (fun settings => (edit settings, ())) u.app).2 = answer at failed ⊢
    cases answer with
    | ok _ => exact absurd trivial failed
    | error e => exact ⟨e, rfl⟩

private theorem deleteSecret_serves {name : String} {r : (WizardCall.deleteSecret (ν := ν) name).Answer}
    (served : Serves records format backups here addresses obs own (.deleteSecret name) w t r) :
    t.obs obs = w.obs obs ∧ t.app.config.rest.obs = w.app.config.rest.obs ∧
      (Foreign own w.app.config.rest.obsKey → Foreign own t.app.config.rest.obsKey) := by
  obtain ⟨u, c, happened, -, answered⟩ := served
  obtain ⟨rfl, rfl⟩ := Prod.mk.inj answered
  exact ⟨happened.obs, happened.settings, happened.foreign⟩

/-- Nothing is backed up, and the OBS has its own settings. -/
structure Restored (obs : Text) (own : StreamSettings ν) (w : ObsWorld ν) : Prop where
  about : w.app.config.rest.obs.id = obs
  foreign : Foreign own w.app.config.rest.obsKey
  has : w.obs obs = own
  none : w.app.config.rest.obs.backup = none

theorem Restored.safe (restored : Restored obs own w) : Safe backups here addresses obs own w :=
  ⟨restored.about, restored.foreign, .inl ⟨restored.has, .inl restored.none⟩⟩

theorem Restored.deleted {name : String} {r : (WizardCall.deleteSecret (ν := ν) name).Answer}
    (restored : Restored obs own w)
    (served : Serves records format backups here addresses obs own (.deleteSecret name) w t r) :
    Restored obs own t := by
  obtain ⟨same, settings, foreign⟩ := deleteSecret_serves served
  exact ⟨by rw [settings]; exact restored.about, foreign restored.foreign, same.trans restored.has,
    by rw [settings]; exact restored.none⟩

/-- OBS is given its own settings back, or the call fails. -/
theorem setStream_back {r : Except ObsError Unit} (safe : Safe backups here addresses obs own w)
    (backup : BackedUp backups obs own w)
    (served : Serves records format backups here addresses obs own
      (.setStream obs ⟨own.serviceType, own.settings⟩) w t r) :
    Safe backups here addresses obs own t ∧ (r = .ok () → BackedUp backups obs own t ∧ t.obs obs = own) := by
  obtain ⟨u, happened, rfl | ⟨rfl, e, rfl⟩⟩ := setStream_serves served
  · have kept := happened.backedUp backup
    have backup : BackedUp backups obs own
        { u with obs := Function.update u.obs obs ⟨own.serviceType, own.settings⟩ } :=
      ⟨kept.named, kept.stored⟩
    have has : Function.update u.obs obs ⟨own.serviceType, own.settings⟩ obs = own := Function.update_self ..
    exact ⟨⟨(happened.safe safe).about, (happened.safe safe).foreign, .inl ⟨has, .inr backup⟩⟩,
      fun _ => ⟨backup, has⟩⟩
  · exact ⟨happened.safe safe, nofun⟩

/-- When OBS has its own settings, the settings stop naming the backup, or they stay as they are. -/
theorem change_clears {edit : ObsAppSettings → ObsAppSettings} {r : Except ChangeError Unit}
    (edited : ∀ c : ObsAppSettings,
      (edit c).rest.obs = { c.rest.obs with backup := none } ∧ (edit c).rest.ingestKey = c.rest.ingestKey)
    (safe : Safe backups here addresses obs own w) (backup : BackedUp backups obs own w) (has : w.obs obs = own)
    (served : Serves records format backups here addresses obs own (.change edit) w t r) :
    Safe backups here addresses obs own t ∧ (r = .ok () → Restored obs own t) := by
  obtain ⟨same, alike, config, settings, foreign, changed | ⟨⟨e, rfl⟩, kept⟩⟩ := change_serves served
  · have restored : Restored obs own t := by
      refine ⟨?_, ?_, same.trans has, ?_⟩
      · rw [changed, (edited _).1, settings]
        exact safe.about
      · rw [changed]
        exact (foreign safe.foreign).same (edited _).2
      · rw [changed, (edited _).1]
    exact ⟨restored.safe, fun _ => restored⟩
  · have backup : BackedUp backups obs own t := by
      refine ⟨?_, backup.stored.alike alike⟩
      rw [kept, settings]
      exact backup.named
    refine ⟨⟨?_, ?_, .inl ⟨same.trans has, .inr backup⟩⟩, nofun⟩
    · rw [kept, settings]
      exact safe.about
    · rw [kept]
      exact foreign safe.foreign

/-- What is left to do once OBS has its own settings back. -/
theorem guards_clear {edit : ObsAppSettings → ObsAppSettings}
    (edited : ∀ c : ObsAppSettings,
      (edit c).rest.obs = { c.rest.obs with backup := none } ∧ (edit c).rest.ingestKey = c.rest.ingestKey)
    (safe : Safe backups here addresses obs own w) (backup : BackedUp backups obs own w) (has : w.obs obs = own) :
    Guards records format backups here addresses obs own
      (Wizard.orFailAs (perform (WizardCall.change edit)) .backupKept fun () =>
        call (.deleteSecret OBS_BACKUP) fun _ => call (.deleteSecret OBS_BACKUP_KEY)
          fun _ => done (.ok .restored)) w := by
  refine always_andThen (Q := fun r t => Safe backups here addresses obs own t ∧ (r = .ok () → Restored obs own t))
    ⟨safe, fun t r served => ?_⟩ fun r t ended => ?_
  · have after := change_clears edited safe backup has served
    exact ⟨after.1, after⟩
  · cases r with
    | error e => exact guards_error ended.1
    | ok _ =>
      have restored := ended.2 rfl
      refine ⟨ended.1, fun u r served => ?_⟩
      have restored := restored.deleted served
      refine ⟨restored.safe, fun v r served => ?_⟩
      have restored := restored.deleted served
      exact ⟨restored.safe, fun _ => restored.has⟩

private theorem guards_restore (read : backups.decode (backups.encode obs own.settings) = some (obs, own.settings))
    (safe : Safe backups here addresses obs own w) :
    Guards records format backups here addresses obs own (Wizard.restore records backups) w := by
  unfold Wizard.restore
  refine ⟨safe, fun t config served => ?_⟩
  obtain ⟨-, knows, -⟩ := config_serves safe served
  have safe := knows.safe
  have named : config.rest.obs.backup = none ∨
      config.rest.obs.backup = some ⟨own.serviceType, some obs, none⟩ ∧ BackedUp backups obs own t := by
    rw [knows.config]
    rcases safe.safe with has | up
    · exact has.backup.imp_right fun backup => ⟨backup.named, backup⟩
    · exact .inr ⟨up.backup.named, up.backup⟩
  dsimp only
  rcases named with none | ⟨named, backup⟩
  · rw [none]
    exact guards_error safe
  rw [named, knows.id]
  dsimp only
  rw [Option.filter_some, if_neg (by simp)]
  dsimp only
  refine always_orFail (backupSettings_always read safe backup) (fun e u ended => ended.1.safe safe)
    (fun settings u ended => ?_) fun _ _ _ => nofun
  obtain rfl := ended.2 settings rfl
  replace knows := knows.later ended.1
  replace backup := ended.1.backedUp backup
  refine guards_asks (passwordFor_only config) knows.safe fun password v happened => ?_
  replace knows := knows.later happened
  replace backup := happened.backedUp backup
  refine guards_connectTo knows.safe fun x happened => ?_
  replace knows := knows.later happened
  replace backup := happened.backedUp backup
  refine guards_orFailAs ⟨trivial, fun _ => trivial⟩ knows.safe fun streaming y happened => ?_
  replace safe := happened.safe knows.safe
  replace backup := happened.backedUp backup
  split
  · exact guards_error safe
  refine always_andThen (Q := fun r z => Safe backups here addresses obs own z ∧
    (r = .ok () → BackedUp backups obs own z ∧ z.obs obs = own)) ⟨safe, fun z r served => ?_⟩ fun r z ended => ?_
  · have after := setStream_back safe backup served
    exact ⟨after.1, after⟩
  · cases r with
    | ok _ => exact guards_clear (fun _ => ⟨rfl, rfl⟩) ended.1 (ended.2 rfl).1 (ended.2 rfl).2
    | error e => exact guards_error ended.1

private theorem obsId_trim (host : Text) (port : ℕ) : obsId (Text.trim host) port = obsId host port := by
  unfold obsId
  rw [Text.trim_trim]

private theorem guards_connect {host : Text} {port : ℕ} {password : Text} (same : obsId host port = obs)
    (safe : Safe backups here addresses obs own w) :
    Guards records format backups here addresses obs own (Wizard.connect records host port password) w := by
  unfold Wizard.connect
  dsimp only
  split
  · exact guards_error safe
  refine ⟨safe, fun t saved served => ?_⟩
  obtain ⟨-, knows, -⟩ := config_serves safe served
  refine guards_asks ?_ knows.safe fun given u happened => ?_
  · split_ifs
    · trivial
    · exact passwordFor_only saved
    · trivial
  replace safe := happened.safe knows.safe
  refine guards_orFailAs ⟨trivial, fun _ => trivial⟩ safe fun _ v happened => ?_
  replace safe := happened.safe safe
  refine always_andThen (Q := fun _ x => Safe backups here addresses obs own x) ⟨safe, fun x r served => ?_⟩
    fun r x safe => ?_
  · have safe := changeAll_safe ?unnamed ?updated ?edited safe served
    · exact ⟨safe, safe⟩
    case unnamed => decide
    case edited => exact fun c => ⟨(obsId_trim ..).trans same, rfl, rfl⟩
    case updated =>
      intro f f' s
      split_ifs
      · exact (set_sets f OBS_PASSWORD _ s).others (by decide)
      · exact (delete_deletes f OBS_PASSWORD s).others (by decide)
      · exact .refl ..
  · cases r with
    | ok _ => exact ⟨safe, nofun⟩
    | error e => exact guards_error safe

/-! ## Restoring with nothing failing -/

/-- A call that leaves what is set in every OBS. -/
def WizardCall.Leaves : WizardCall ν → Prop
  | .setStream _ _ => False
  | _ => True

private theorem leaves_run {α : Type} {p : Program (WizardCall ν) WizardCall.Answer α} (only : p.Only WizardCall.Leaves)
    (c : Reception) (w : ObsWorld ν) : (p.run (ObsWorld.answer records format c) w).1.obs = w.obs := by
  refine (only.run (R := fun w t => w.obs = t.obs) (fun _ => rfl) .trans (fun i leaves s => ?_) w).symm
  cases i with
  | setStream => exact absurd leaves id
  | _ => rfl

/-- With nothing failing, an OBS has what it is set to. -/
theorem setStream_run {k : Wizard ν WizardReply} (only : k.Only WizardCall.Leaves) (config : ObsAppSettings)
    (password : Option Text) (s : StreamSettings ν) (w : ObsWorld ν) :
    ((Wizard.connectTo config password (Wizard.setStream obs s k)).run
      (ObsWorld.answer records format {}) w).1.obs obs =
      s := by
  have set : (Wizard.connectTo config password (Wizard.setStream obs s k)).run (ObsWorld.answer records format {}) w =
      k.run (ObsWorld.answer records format {}) { w with obs := Function.update w.obs obs s } := rfl
  rw [set, leaves_run only]
  exact Function.update_self ..

private theorem backupSettings_run (read : backups.decode (backups.encode obs own.settings) = some (obs, own.settings))
    (backup : BackedUp backups obs own w) :
    (Wizard.backupSettings backups ⟨own.serviceType, some obs, none⟩ obs).run (ObsWorld.answer records format {}) w =
      (w, .ok own.settings) := by
  have raw : w.app.secrets.value {} OBS_BACKUP = some (backups.encode obs own.settings) :=
    (value_eq ..).trans backup.stored.held
  unfold Wizard.backupSettings
  rw [Program.run]
  dsimp only [ObsWorld.answer]
  rw [raw]
  dsimp only [Option.bind_some]
  rw [read]
  dsimp only [Option.getD_some]
  rw [if_neg (not_not.mpr rfl), Program.run]
  cases own.settings <;> rfl

private theorem restore_puts_back (read : backups.decode (backups.encode obs own.settings) = some (obs, own.settings))
    (safe : Safe backups here addresses obs own w) :
    ((Wizard.restore records backups).run (ObsWorld.answer records format {}) w).1.obs obs = own := by
  have named : w.app.config.rest.obs.backup = none ∧ w.obs obs = own ∨ BackedUp backups obs own w := by
    rcases safe.safe with ⟨has, none | backup⟩ | up
    · exact .inl ⟨none, has⟩
    · exact .inr backup
    · exact .inr up.backup
  unfold Wizard.restore
  rw [Program.run]
  dsimp only [ObsWorld.answer]
  rcases named with ⟨none, has⟩ | backup
  · rw [none]
    exact has
  rw [backup.named, safe.about]
  dsimp only
  rw [Option.filter_some, if_neg (by simp)]
  dsimp only
  unfold Program.orFail
  rw [run_andThen, backupSettings_run read backup]
  dsimp only
  rw [run_andThen]
  refine setStream_run ?_ ..
  refine ⟨trivial, fun r => ?_⟩
  cases r with
  | ok _ => exact ⟨trivial, fun _ => ⟨trivial, fun _ => trivial⟩⟩
  | error e => trivial

/-! ## Whole runs -/

/-- The wizard is used with the OBS `obs`. -/
def WizardRequest.For (obs : Text) : WizardRequest → Prop
  | .connect host port _ => obsId host port = obs
  | .configure _ _ | .restore => True

/-- Users change no stream settings in the OBS `obs`, and what the dashboard changes is not about OBS, nor is its ingest
key set to one that OBS has by itself, for an application of stream-delay's name. -/
def ObsHappening.Elsewhere (obs : Text) (own : StreamSettings ν) : ObsHappening ν → Prop
  | .user changed _ => changed ≠ obs
  | .settings _ _ edit => ∀ c, (edit c).rest.obs = c.rest.obs ∧
      (Foreign own c.rest.obsKey → Foreign own (edit c).rest.obsKey)

private theorem happen_meanwhile {e : ObsHappening ν} (elsewhere : e.Elsewhere obs own) :
    Meanwhile obs own w (w.happen records format e) := by
  cases e with
  | user changed s => exact ⟨id, Function.update_of_ne (Ne.symm elsewhere) .., rfl, .refl ..⟩
  | settings a key edit =>
    obtain ⟨alike, cases⟩ := locked_cases records format a key (fun settings => (edit settings, ())) w.app
    rcases cases with ⟨-, changed⟩ | ⟨-, kept⟩
    · refine ⟨fun foreign => ?_, rfl, ?_, alike OBS_BACKUP (by decide)⟩
      · exact (congrArg (fun c : ObsAppSettings => Foreign own c.rest.obsKey) changed).mpr ((elsewhere _).2 foreign)
      · exact (congrArg (fun c : ObsAppSettings => c.rest.obs) changed).trans (elsewhere _).1
    · refine ⟨fun foreign => ?_, rfl, ?_, alike OBS_BACKUP (by decide)⟩
      · exact (congrArg (fun c : ObsAppSettings => Foreign own c.rest.obsKey) kept).mpr foreign
      · exact congrArg (fun c : ObsAppSettings => c.rest.obs) kept

variable (records format) in
private theorem office_keeps (read : backups.decode (backups.encode obs own.settings) = some (obs, own.settings))
    (reaches : addresses (reachable here.ingest)) (positive : here.ingestPort ≠ 0) (small : here.ingestPort < 2 ^ 16) :
    (ObsWorld.office records format backups here).Keeps (WizardRequest.For obs) (Reception.Keeps addresses)
      (ObsHappening.Elsewhere obs own) (Meanwhile obs own) (Safe backups here addresses obs own) (PutBack obs own) where
  refl := .refl
  trans := .trans
  happened _ _ elsewhere := happen_meanwhile elsewhere
  stable happened safe := happened.safe safe
  settled happened put restored := happened.obs.trans (put restored)
  served k w asked safe := by
    cases k with
    | connect host port password => exact guards_connect asked safe
    | configure importKey addOverlay => exact guards_configure reaches positive small safe
    | restore => exact guards_restore read safe

/-- From no backup on, and whatever fails: OBS has its own settings, or they are stored as the backup the settings name;
once they are said to have been restored, it has them; and with nothing failing, restoring gives them back. -/
theorem own_settings_kept (read : backups.decode (backups.encode obs own.settings) = some (obs, own.settings))
    (reaches : addresses (reachable here.ingest)) (positive : here.ingestPort ≠ 0) (small : here.ingestPort < 2 ^ 16)
    (foreign : Foreign own w.app.config.rest.obsKey) (about : w.app.config.rest.obs.id = obs) (has : w.obs obs = own)
    (fresh : w.app.config.rest.obs.backup = none) {moves : List (Move WizardRequest Reception (ObsHappening ν))}
    (fine : ∀ m ∈ moves,
      Office.Fine (WizardRequest.For obs) (Reception.Keeps addresses) (ObsHappening.Elsewhere obs own) m) :
    let s := (ObsWorld.office records format backups here).after ⟨w, none⟩ moves
    (s.state.obs obs = own ∨
        s.state.app.config.rest.obs.backup = some ⟨own.serviceType, some obs, none⟩ ∧
          s.state.app.secrets.copy OBS_BACKUP = some (backups.encode obs own.settings)) ∧
      (s.working = some (done (.ok .restored)) → s.state.obs obs = own) ∧
      ((Wizard.restore records backups).run (ObsWorld.answer records format {}) s.state).1.obs obs = own := by
  intro s
  have start : Safe backups here addresses obs own w := ⟨about, foreign, .inl ⟨has, .inl fresh⟩⟩
  obtain ⟨safe, going⟩ :=
    (office_keeps records format read reaches positive small).after (s := ⟨w, none⟩) fine ⟨start, nofun⟩
  refine ⟨?_, fun ended => (going _ ended).2 rfl, restore_puts_back read safe⟩
  rcases safe.safe with has | up
  · exact .inl has.has
  · exact .inr ⟨up.backup.named, up.backup.stored.held⟩

/-- An address and a port, as they are written. -/
def readBind : Text → Option IpAddr
  | '[' :: rest => (Text.splitOnce ']' rest).bind fun (ip, _) => IpText.parseIpv6 ip
  | bind => (Text.splitOnce ':' bind).bind fun (ip, _) => IpText.parseIpv4 ip

/-- The settings as they are written, with the web pages at port 7788. -/
def settingsFormat : Format ObsRest ℕ where
  toValue c := .object [
    ("api", .object [("bind", text (c.rest.apiBind.withPort 7788))]),
    ("destination", .object [
      ("key_mode", .string (if c.destination.keyMode = .stored then "stored" else "passthrough")),
      ("service", text c.rest.service), ("url", text c.destination.url)]),
    ("ingest", .object [("key", c.rest.ingestKey.elim .null text)]),
    ("obs", .object [("backup", c.rest.obs.backup.elim .null backup), ("host", text c.rest.obs.host),
      ("port", .number c.rest.obs.port)])]
  fromValue v := do
    let mode ← textAt ["destination", "key_mode"] v
    let url ← textAt ["destination", "url"] v
    let service ← textAt ["destination", "service"] v
    let host ← textAt ["obs", "host"] v
    let port ← match v.at? ["obs", "port"] with
      | some (.number port) => some port
      | _ => none
    let apiBind ← (textAt ["api", "bind"] v).bind readBind
    let keyMode := if mode = "stored".toList then .stored else .passthrough
    return ⟨⟨url, keyMode⟩,
      ⟨⟨host, port, (v.at? ["obs", "backup"]).bind readBackup⟩, textAt ["ingest", "key"] v, service,
      apiBind⟩⟩
where
  text (t : Text) : Value ℕ := .string (String.ofList t)
  /-- What is not there is not written. -/
  backup (b : ObsBackup) : Value ℕ := .object <|
    (b.obs.map fun origin => ("obs", text origin)).toList ++ [("service_type", text b.serviceType)] ++
      (b.settingsJson.map fun json => ("settings_json", Value.string json)).toList
  textAt (path : List String) (v : Value ℕ) : Option Text :=
    match v.at? path with
    | some (.string t) => some t.toList
    | _ => none
  readBackup (v : Value ℕ) : Option ObsBackup :=
    (textAt ["service_type"] v).map fun serviceType =>
      ⟨serviceType, textAt ["obs"] v, (textAt ["settings_json"] v).map String.ofList⟩

/-- OBS's own settings: an application `live` too, on another server and with a key of its own. -/
def forRestream : StreamSettings ℕ where
  serviceType := "rtmp_custom".toList
  settings := .object [("key", .string "re_1"), ("server", .string "rtmp://live.restream.io/live"),
    ("use_auth", .bool false)]

/-- How those are backed up. -/
def restreamBackup : String :=
  "\x7b\"for\":\"127.0.0.1:4455\",\"value\":\x7b\"key\":\"re_1\",\"server\":\"rtmp://live.restream.io/live\"," ++
    "\"use_auth\":false\x7d\x7d"

/-- Backups of those settings. -/
def restreamBackups : BackupFormat ℕ where
  encode _ _ := restreamBackup
  decode raw := if raw = restreamBackup then some ("127.0.0.1:4455".toList, forRestream.settings) else none
  parse _ := .error "expected value at line 1 column 1"

def thisComputer : Installation := ⟨.v4 127 0 0 1, 1935, 7788, false, "r".toList⟩

/-- stream-delay before OBS is set up. -/
def beforeSetup : ObsWorld ℕ where
  app :=
    { secrets := ⟨none, .readable fun _ => none⟩
      saved := ⟨⟨TWITCH_URL, .stored⟩, ⟨⟨"127.0.0.1".toList, 4455, none⟩, none, "twitch".toList, .v4 127 0 0 1⟩⟩
      config := ⟨⟨TWITCH_URL, .stored⟩, ⟨⟨"127.0.0.1".toList, 4455, none⟩, none, "twitch".toList, .v4 127 0 0 1⟩⟩
      configPath := true
      keyOverride := none
      keyOverrideUrl := []
      appliedDestination := none }
  obs _ := forRestream

/-- The one address of a computer without a network. -/
def OnlyLoopback (ip : IpAddr) : Prop := ip = .v4 127 0 0 1

/-- Calls that go well there. -/
def goesWell : Reception := { isLocal := fun host => host = "127.0.0.1".toList }

/-- OBS is set up, and after its ingest key is changed it is set up again, which is given up halfway. -/
def setUpTwice : List (Move WizardRequest Reception (ObsHappening ℕ)) :=
  .request (.configure true false) :: List.replicate 12 (.call goesWell) ++
    .meanwhile (.settings {} .keep fun c => { c with rest := { c.rest with ingestKey := some "ingest".toList } }) ::
    .request (.configure true false) :: List.replicate 6 (.call goesWell) ++ [.giveUp]

/-- OBS streams to stream-delay then, and restoring gives its own settings back. -/
theorem own_settings_kept_twice :
    let s := (ObsWorld.office Records.json settingsFormat restreamBackups thisComputer).after
      ⟨beforeSetup, none⟩ setUpTwice
    (s.state.obs "127.0.0.1:4455".toList).key = some LOCAL_KEY ∧
      ((Wizard.restore Records.json restreamBackups).run (ObsWorld.answer Records.json settingsFormat {}) s.state).1.obs
        "127.0.0.1:4455".toList = forRestream := by
  have read : restreamBackups.decode (restreamBackups.encode "127.0.0.1:4455".toList forRestream.settings) =
      some ("127.0.0.1:4455".toList, forRestream.settings) := by
    dsimp only [restreamBackups]
    rw [if_pos rfl]
  have reaches : OnlyLoopback (reachable thisComputer.ingest) := rfl
  have well : Reception.Keeps OnlyLoopback goesWell := ⟨fun ip own => by rw [own]; decide, nofun⟩
  refine ⟨by decide +kernel,
    (own_settings_kept read reaches (by decide) (by decide) (.inr (by decide)) (by decide) rfl rfl
    ?_).2.2⟩
  intro m member
  simp only [setUpTwice, List.mem_append, List.mem_cons, List.mem_replicate, List.not_mem_nil, or_false] at member
  rcases member with ((rfl | ⟨-, rfl⟩) | (rfl | rfl | ⟨-, rfl⟩)) | rfl
  · trivial
  · exact well
  · refine fun c => ⟨rfl, fun _ => .inr ?_⟩
    show (forRestream.key.any fun key => ownKey key "ingest".toList) = false
    decide
  · trivial
  · exact well
  · trivial

-- What is written is read back.
example : settingsFormat.fromValue (settingsFormat.toValue beforeSetup.app.config) = some beforeSetup.app.config := by
  decide +kernel

end StreamDelay.Control
