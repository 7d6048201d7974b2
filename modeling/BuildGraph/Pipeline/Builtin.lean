import BuildGraph.Pipeline.Config

/-!
# The built-in config

Without a config file a project is built as a Python package.
-/

namespace BuildGraph.PipelineConfig

/-- The config of a project in Python: a package, a report on test coverage and a report on style. -/
def builtin : PipelineConfig where
  base :=
    { image := "docker.io/library/alpine:latest"
      systemInstall := "apk add --no-cache python3 py3-pip py3-distutils-extra py3-wheel build-base gcc " ++
        "python3-dev zlib-dev jpeg-dev"
      dependencyInstall := "pip install -r requirements.txt"
      manifest := "requirements.txt"
      workdir := "/app"
      context := "working-dir" }
  stages :=
    let coverageFile := StringMap.ofList [("COVERAGE_FILE", "/tmp/coverage")]
    [{ name := "build"
       setup := []
       steps := [⟨"python3 setup.py bdist", .empty, .readWrite⟩]
       output := "/app/dist"
       exportPath? := none },
     { name := "coverage"
       setup := ["pip install coverage"]
       steps :=
         [⟨"coverage run -m unittest discover", coverageFile, .readOnly⟩,
          ⟨"coverage html --directory /out/htmlcov", coverageFile, .readOnly⟩]
       output := "/out"
       exportPath? := none },
     { name := "pylint"
       setup := ["pip install pylint"]
       steps := [⟨"pylint pngparser -f json --output /app/pylint/report.json", .empty, .readWrite⟩]
       output := "/app/pylint"
       exportPath? := none }]

end BuildGraph.PipelineConfig
