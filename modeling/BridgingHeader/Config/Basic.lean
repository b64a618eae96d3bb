import BridgingHeader.Path.Basic
import BridgingHeader.ImportUnit

/-!
# Configurations

A configuration sets some of eight keys. Layers are merged from the most general to the most
specific one, and a key has the value of the last layer that sets it.
-/

namespace BridgingHeader

/-- Where the tools are. -/
structure ToolSettings where
  xcodebuild : Option Path := none
  clang : Option Path := none
  sourcekitten : Option Path := none
  deriving DecidableEq, Repr

/-- How dry runs are made. -/
structure BuildOverrides where
  sdk : Option String := none
  destination : Option String := none
  legacyBuildSystem : Option Bool := none
  deriving DecidableEq, Repr

/-- How interfaces are generated. -/
structure GenerationSettings where
  assumeNonnull : Option Bool := none
  umbrellaHeader : Option String := none
  deriving DecidableEq, Repr

/-- A configuration, in which every key may be unset. -/
structure Config where
  tools : ToolSettings := {}
  build : BuildOverrides := {}
  generate : GenerationSettings := {}
  deriving DecidableEq, Repr

namespace Config

/-- The configuration that sets nothing. -/
def empty : Config := {}

/-- A configuration with a more specific layer over it. -/
def merge (base layer : Config) : Config where
  tools :=
    { xcodebuild := layer.tools.xcodebuild.or base.tools.xcodebuild
      clang := layer.tools.clang.or base.tools.clang
      sourcekitten := layer.tools.sourcekitten.or base.tools.sourcekitten }
  build :=
    { sdk := layer.build.sdk.or base.build.sdk
      destination := layer.build.destination.or base.build.destination
      legacyBuildSystem := layer.build.legacyBuildSystem.or base.build.legacyBuildSystem }
  generate :=
    { assumeNonnull := layer.generate.assumeNonnull.or base.generate.assumeNonnull
      umbrellaHeader := layer.generate.umbrellaHeader.or base.generate.umbrellaHeader }

/-- The build tool in effect. -/
def xcodebuild (c : Config) : Path := c.tools.xcodebuild.getD ⟨"/usr/bin/xcodebuild"⟩

/-- The preprocessor in effect. -/
def clang (c : Config) : Path := c.tools.clang.getD ⟨"/usr/bin/clang"⟩

/-- The interface service in effect. -/
def sourcekitten (c : Config) : Path := c.tools.sourcekitten.getD ⟨"sourcekitten"⟩

/-- Dry runs use the legacy build system unless it is switched off. -/
def legacyBuildSystem (c : Config) : Bool := c.build.legacyBuildSystem.getD true

/-- Declarations are not nonnull by default unless this is switched on. -/
def assumeNonnull (c : Config) : Bool := c.generate.assumeNonnull.getD false

/-- The umbrella header in effect. -/
def umbrellaHeader (c : Config) : String :=
  c.generate.umbrellaHeader.getD ImportUnit.defaultUmbrella

/-- The directory that holds configurations, inside a home or project directory. -/
def directoryIn (directory : Path) : Path := directory.join ⟨".bridgecraft"⟩

/-- The configuration file of a home or project directory. -/
def fileIn (directory : Path) : Path := (directoryIn directory).join ⟨"config.toml"⟩

end Config

end BridgingHeader
